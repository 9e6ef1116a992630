/-
  DiceMarkup.Proofs.Lexing

  The words of a text that was put together from parts with known words. Words
  are found from left to right, and only a number can go on into what follows
  it: what is read as words on its own is read as the same words where it stands
  before a character that no number takes.

  Pieces:
  * `Reads` — a part of a text with its words, whatever follows it
  * `Reads.symbol`, `Reads.space`, `Reads.append` — texts from parts
  * `IsNumber`, `Reads.number` — numbers
-/
import DiceMarkup.Formula.Token
import Mathlib

namespace DiceMarkup.Formula.Infix

/-! ## The words of a part of a text -/

/-- A number does not go on into what follows it. -/
def EndsNumber (rest : List Char) : Prop :=
  ∀ c ∈ rest.head?, c.isDigit = false ∧ c ≠ '.'

/-- The text has these words wherever a number that it ends with does not go on. -/
def Reads (written : List Char) (words : List Token) : Prop :=
  ∀ found rest, EndsNumber rest →
    tokens found (written ++ rest) = tokens (words.reverse ++ found) rest

section Symbols

variable {c : Char} {token : Token} {found words more : List Token} {cs cs' : List Char}

theorem isBlank_eq_false_of_ofSymbol? (h : Token.ofSymbol? c = some token) :
    Text.isBlank c = false := by
  unfold Token.ofSymbol? at h
  split at h <;> first | decide | exact absurd h (by simp)

theorem endsNumber_symbol (h : Token.ofSymbol? c = some token) (cs : List Char) :
    EndsNumber (c :: cs) := by
  intro d h_head
  obtain rfl := Option.some.inj h_head
  unfold Token.ofSymbol? at h
  split at h <;> first | decide | exact absurd h (by simp)

theorem endsNumber_space (cs : List Char) : EndsNumber (' ' :: cs) := by
  intro d h_head
  obtain rfl := Option.some.inj h_head
  decide

theorem tokens_symbol (h : Token.ofSymbol? c = some token) :
    tokens found (c :: cs) = tokens (token :: found) cs := by
  rw [tokens, if_neg (Bool.eq_false_iff.1 (isBlank_eq_false_of_ofSymbol? h)), h]

theorem tokens_space : tokens found (' ' :: cs) = tokens found cs := by
  rw [tokens, if_pos (by decide)]

namespace Reads

theorem nil : Reads [] [] :=
  fun _ _ _ => rfl

theorem symbol (h_symbol : Token.ofSymbol? c = some token) (h : Reads cs words) :
    Reads (c :: cs) (token :: words) := by
  intro found rest h_rest
  rw [List.cons_append, tokens_symbol h_symbol, h _ _ h_rest, List.reverse_cons, List.append_assoc]
  rfl

theorem space (h : Reads cs words) : Reads (' ' :: cs) words := by
  intro found rest h_rest
  rw [List.cons_append, tokens_space, h _ _ h_rest]

/-- Where the second text cannot go on with a number, the words of both follow one another. -/
theorem append (h : Reads cs words) (h' : Reads cs' more)
    (h_ends : ∀ rest, EndsNumber rest → EndsNumber (cs' ++ rest)) :
    Reads (cs ++ cs') (words ++ more) := by
  intro found rest h_rest
  rw [List.append_assoc, h _ _ (h_ends rest h_rest), h' _ _ h_rest, List.reverse_append,
    List.append_assoc]

theorem tokenize {written : String} (h : Reads written.toList words) :
    tokenize written = .ok words := by
  have h_tokens := h [] [] (fun _ h_head => absurd h_head (by simp))
  rw [List.append_nil, List.append_nil, tokens, List.reverse_reverse] at h_tokens
  exact h_tokens

end Reads

end Symbols

/-! ## Numbers -/

/-- Digits, and perhaps a point and more digits, with the number that they are. -/
inductive IsNumber : List Char → Float → Prop
  | whole {digits : List Char} (h_some : digits ≠ []) (h_digits : ∀ d ∈ digits, d.isDigit = true) :
      IsNumber digits (Decimal.ofDigits digits [])
  | pointed {digits fraction : List Char} (h_some : digits ≠ [])
      (h_digits : ∀ d ∈ digits, d.isDigit = true) (h_fraction : ∀ d ∈ fraction, d.isDigit = true) :
      IsNumber (digits ++ '.' :: fraction) (Decimal.ofDigits digits fraction)

section Literals

variable {cs digits fraction rest : List Char} {x : Float}

theorem takeWhile_digits (h_digits : ∀ d ∈ digits, d.isDigit = true)
    (h_rest : ∀ c ∈ rest.head?, c.isDigit = false) :
    (digits ++ rest).takeWhile Char.isDigit = digits := by
  rw [List.takeWhile_append_of_pos h_digits]
  cases rest with
  | nil => rw [List.takeWhile_nil, List.append_nil]
  | cons c rest =>
    rw [List.takeWhile_cons_of_neg (by simp [h_rest c rfl]), List.append_nil]

theorem literal_whole (h_digits : ∀ d ∈ digits, d.isDigit = true) (h_rest : EndsNumber rest) :
    literal (digits ++ rest) = (digits, none) := by
  rw [literal, takeWhile_digits h_digits fun c h_head => (h_rest c h_head).1, List.drop_left]
  split
  · rename_i others
    exact absurd rfl (h_rest '.' rfl).2
  · rfl

theorem literal_pointed (h_digits : ∀ d ∈ digits, d.isDigit = true)
    (h_fraction : ∀ d ∈ fraction, d.isDigit = true) (h_rest : EndsNumber rest) :
    literal (digits ++ '.' :: (fraction ++ rest)) = (digits, some fraction) := by
  have h_point : ∀ c ∈ ('.' :: (fraction ++ rest)).head?, c.isDigit = false := by simp
  simp only [literal, takeWhile_digits h_digits h_point, List.drop_left,
    takeWhile_digits h_fraction fun c h_head => (h_rest c h_head).1]

/-- What starts with a digit and is taken as one literal is one word. -/
theorem Reads.of_literal {c : Char} {written : List Char × Option (List Char)}
    (h_digit : c.isDigit = true) (h_some : written.1 ≠ [])
    (h_length : literalLength written = (c :: cs).length)
    (h_literal : ∀ rest, EndsNumber rest → literal (c :: cs ++ rest) = written) :
    Reads (c :: cs) [.number (Decimal.ofDigits written.1 (written.2.getD []))] := by
  intro found rest h_rest
  have h_here := h_literal rest h_rest
  -- A digit is neither blank nor a symbol, so the reader comes to its branch for numbers.
  have h_symbol : Token.ofSymbol? c = none := by
    cases h : Token.ofSymbol? c with
    | none => rfl
    | some token => exact absurd h_digit (by simp [(endsNumber_symbol h [] c rfl).1])
  rw [List.cons_append] at h_here ⊢
  rw [tokens, if_neg (by simp [Text.isBlank_eq_false_of_isDigit h_digit]), h_symbol]
  dsimp only
  rw [if_pos (by simp [h_digit]), h_here, if_neg (by simp [h_some]), h_length, List.length_cons,
    Nat.add_sub_cancel, List.drop_left]
  rfl

/-- A number is one word. -/
theorem Reads.number (h : IsNumber cs x) : Reads cs [.number x] := by
  cases h with
  | whole h_some h_digits =>
    obtain ⟨c, others, rfl⟩ := List.exists_cons_of_ne_nil h_some
    exact .of_literal (h_digits c List.mem_cons_self) h_some rfl
      fun rest h_rest => literal_whole h_digits h_rest
  | @pointed digits fraction h_some h_digits h_fraction =>
    obtain ⟨c, others, rfl⟩ := List.exists_cons_of_ne_nil h_some
    have h_literal : ∀ rest, EndsNumber rest →
        literal (c :: others ++ '.' :: fraction ++ rest) = (c :: others, some fraction) := by
      intro rest h_rest
      rw [List.append_assoc]
      exact literal_pointed h_digits h_fraction h_rest
    have h_length : literalLength (c :: others, some fraction) =
        (c :: others ++ '.' :: fraction).length := by
      rw [literalLength, List.length_append, List.length_cons, Nat.add_assoc, List.length_cons]
    exact .of_literal (h_digits c List.mem_cons_self) h_some h_length h_literal

end Literals

end DiceMarkup.Formula.Infix
