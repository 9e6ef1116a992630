/-
  DiceMarkup.Proofs.Bounds

  What a dice holds, and how it is written. The bounds of a dice that can be
  rolled are whole numbers, and a text that is read as a whole number is a word,
  as an attribute has to be. A dice that has been rolled holds its result, which
  is within the bounds and is read as it was written.

  Pieces:
  * `isWord_of_readInt64?`, `isResult_writeInt64` — how whole numbers are written
  * `Dice.bounds_eq_ok`, `Dice.classify_eq_stored` — the dice that are in order
  * `Dice.classify_rolled` — a dice with the result that it was given
  * `Dice.resolve_run_eq_ok` — a dice that is worked out
  * `Submission.fullBounds_eq` — bounds that are completed
-/
import DiceMarkup.Dice
import DiceMarkup.Proofs.Rereading
import DiceMarkup.Submission

namespace DiceMarkup

open DiceMarkup.Bracket (IsResult endsWord)
open Rolling (Source)

/-! ## Whole numbers -/

/-- Digits, after a sign or none, are a word. -/
theorem isWord_of_digits {sign digits : List Char}
    (h_sign : sign = [] ∨ sign = ['-'] ∨ sign = ['+'])
    (h_some : digits ≠ []) (h_digits : ∀ d ∈ digits, d.isDigit = true) :
    Place.isWord false (sign ++ digits) = true := by
  have h_inside : ∀ d ∈ sign ++ digits, endsWord false d = false ∧ d ≠ '(' := by
    intro d hd
    rcases List.mem_append.1 hd with h_mem | h_mem
    · rcases h_sign with rfl | rfl | rfl
      · exact absurd h_mem (by simp)
      · rw [List.mem_singleton.1 h_mem]
        decide
      · rw [List.mem_singleton.1 h_mem]
        decide
    · refine ⟨Bracket.endsWord_of_isDigit (h_digits d h_mem) false, ?_⟩
      rintro rfl
      exact absurd (h_digits _ h_mem) (by decide)
  -- A word must not start with a parenthesis either, which would be a group.
  refine isWord_iff.2 ⟨by simp [h_some], fun h_head => ?_, fun d hd => (h_inside d hd).1⟩
  exact (h_inside _ (List.mem_of_mem_head? h_head)).2 rfl

/-- A result is a word. -/
theorem isWord_of_isResult {cs : List Char} (h : IsResult cs) : Place.isWord false cs = true := by
  obtain ⟨sign, digits, rfl, h_sign, h_some, h_digits⟩ := h
  exact isWord_of_digits (h_sign.imp_right .inl) h_some h_digits

namespace Numeral

theorem isDigit_of_readDigits {limit value n : Nat} {cs : List Char}
    (h : readDigits limit value cs = .ok n) : ∀ c ∈ cs, c.isDigit = true := by
  induction cs generalizing value with
  | nil => exact fun _ h_mem => absurd h_mem (by simp)
  | cons c cs ih =>
    rw [readDigits] at h
    split at h
    · rename_i h_digit
      dsimp only at h
      split at h
      · intro d hd
        rcases List.mem_cons.1 hd with rfl | h_mem
        · exact h_digit
        · exact ih h d h_mem
      · exact absurd h (by simp)
    · exact absurd h (by simp)

theorem isDigit_of_readMagnitude? {limit n : Nat} {cs : List Char}
    (h : readMagnitude? limit cs = some n) : cs ≠ [] ∧ ∀ c ∈ cs, c.isDigit = true := by
  unfold readMagnitude? at h
  split at h
  · exact absurd h (by simp)
  · rename_i h_some
    cases h_read : readDigits limit 0 cs with
    | error fault =>
      rw [h_read] at h
      exact absurd h (by simp [Except.toOption])
    | ok value => exact ⟨by simpa using h_some, isDigit_of_readDigits h_read⟩

theorem isWord_of_readMagnitude? {sign cs : List Char} {limit n : Nat}
    (h_sign : sign = [] ∨ sign = ['-'] ∨ sign = ['+']) (h : readMagnitude? limit cs = some n) :
    Place.isWord false (sign ++ cs) = true :=
  have ⟨h_some, h_digits⟩ := isDigit_of_readMagnitude? h
  isWord_of_digits h_sign h_some h_digits

/-- A text that is read as a number is a word. -/
theorem isWord_of_readInt64? {value : String} {n : Int64} (h : readInt64? value = some n) :
    Place.isWord false value.toList = true := by
  unfold readInt64? at h
  split at h
  · rename_i cs h_text
    obtain ⟨m, h_read, -⟩ := Option.map_eq_some_iff.1 h
    rw [h_text]
    exact isWord_of_readMagnitude? (.inr (.inl rfl)) h_read
  · rename_i cs h_text
    obtain ⟨m, h_read, -⟩ := Option.map_eq_some_iff.1 h
    rw [h_text]
    exact isWord_of_readMagnitude? (.inr (.inr rfl)) h_read
  · obtain ⟨m, h_read, -⟩ := Option.map_eq_some_iff.1 h
    exact isWord_of_readMagnitude? (.inl rfl) h_read

theorem isDigit_of_mem_toDigits (n : Nat) : ∀ d ∈ Nat.toDigits 10 n, d.isDigit = true :=
  fun _ hd => Nat.isDigit_of_mem_toDigits (by decide) (by decide) hd

/-- A number is written in the form of a result. -/
theorem isResult_writeInt64 (value : Int64) : IsResult (writeInt64 value).toList := by
  unfold writeInt64
  cases value.toInt with
  | ofNat n =>
    refine ⟨[], Nat.toDigits 10 n, ?_, .inl rfl, Nat.toDigits_ne_nil, isDigit_of_mem_toDigits n⟩
    simp [Int.repr, Nat.toList_repr]
  | negSucc n =>
    refine ⟨['-'], Nat.toDigits 10 (n + 1), ?_, .inr rfl, Nat.toDigits_ne_nil,
      isDigit_of_mem_toDigits (n + 1)⟩
    simp [Int.repr, Nat.toList_repr]

end Numeral

/-! ## Dice that are in order -/

namespace Dice

theorem bound_eq_ok {node : Node} {n : Int64} (h : bound node = .ok n) :
    ∃ value, node = .text value ∧ Numeral.readInt64? value = some n := by
  unfold bound at h
  split at h
  · rename_i value
    split at h
    · rename_i m h_read
      obtain rfl := Except.ok.inj h
      exact ⟨value, rfl, h_read⟩
    · exact absurd h (by simp)
  · exact absurd h (by simp)

/-- Bounds that are in order are two whole numbers, the lower one first. -/
theorem bounds_eq_ok {attributes : List Node} {min max : Int64}
    (h : bounds attributes = .ok (min, max)) :
    ∃ lower upper, attributes = [.text lower, .text upper] ∧ Numeral.readInt64? lower = some min ∧
      Numeral.readInt64? upper = some max ∧ min ≤ max := by
  unfold bounds at h
  split at h
  · rename_i first second
    cases h_first : bound first with
    | error error => exact absurd h (by simp [h_first, bind, Except.bind])
    | ok low =>
      cases h_second : bound second with
      | error error => exact absurd h (by simp [h_first, h_second, bind, Except.bind])
      | ok high =>
        simp only [h_first, h_second, bind, Except.bind] at h
        split at h
        · exact absurd h (by simp)
        · rename_i h_order
          obtain ⟨rfl, rfl⟩ := Prod.mk.inj (Except.ok.inj h)
          obtain ⟨lower, rfl, h_lower⟩ := bound_eq_ok h_first
          obtain ⟨upper, rfl, h_upper⟩ := bound_eq_ok h_second
          refine ⟨lower, upper, rfl, h_lower, h_upper, ?_⟩
          rw [Int64.lt_iff_toInt_lt] at h_order
          rw [Int64.le_iff_toInt_le]
          omega
  · exact absurd h (by simp)

/-- Without bounds in order, no dice is in order. -/
theorem classify_of_error {attributes : List Node} {error : EvalError}
    (h : bounds attributes = .error error) (children : List Node) :
    classify attributes children = .error error := by
  rw [classify, h]
  rfl

/-- With bounds in order and without children, it is fresh. -/
theorem classify_of_ok {attributes : List Node} {min max : Int64}
    (h : bounds attributes = .ok (min, max)) :
    classify attributes [] = .ok (.fresh min max) := by
  rw [classify, h]
  rfl

/-- The bounds of a dice that is in order are in order. It has no children, or a number for its only
    child, which has been compared with the bounds. -/
theorem classify_eq_ok {attributes children : List Node} {state : State}
    (h : classify attributes children = .ok state) :
    ∃ min max, bounds attributes = .ok (min, max) ∧
      (children = [] ∧ state = .fresh min max ∨
        ∃ value result, children = [.text value] ∧ Numeral.readInt64? value = some result ∧
          ¬ (result < min ∨ max < result) ∧ state = .stored ⟨min, max, result⟩) := by
  cases h_bounds : bounds attributes with
  | error error => exact absurd ((classify_of_error h_bounds children).symm.trans h) (by simp)
  | ok found =>
    obtain ⟨min, max⟩ := found
    refine ⟨min, max, rfl, ?_⟩
    unfold classify at h
    simp only [h_bounds, bind, Except.bind] at h
    split at h
    · exact .inl ⟨rfl, (Except.ok.inj h).symm⟩
    · rename_i value
      split at h
      · exact absurd h (by simp)
      · rename_i result h_read
        split at h
        · exact absurd h (by simp)
        · rename_i h_inside
          exact .inr ⟨value, result, rfl, h_read, h_inside, (Except.ok.inj h).symm⟩
    · exact absurd h (by simp)

/-- The bounds of a fresh dice are in order, and it has no children. -/
theorem classify_eq_fresh {attributes children : List Node} {min max : Int64}
    (h : classify attributes children = .ok (.fresh min max)) :
    bounds attributes = .ok (min, max) ∧ children = [] := by
  obtain ⟨min', max', h_bounds, ⟨h_none, h_state⟩ | ⟨_, _, _, _, _, h_state⟩⟩ := classify_eq_ok h
  · obtain ⟨rfl, rfl⟩ := State.fresh.inj h_state
    exact ⟨h_bounds, h_none⟩
  · exact absurd h_state (by simp)

/-- So are those of a dice that holds a roll, which is its only child. -/
theorem classify_eq_stored {attributes children : List Node} {roll : Roll}
    (h : classify attributes children = .ok (.stored roll)) :
    bounds attributes = .ok (roll.min, roll.max) ∧
      ∃ value, children = [.text value] ∧ Numeral.readInt64? value = some roll.result := by
  obtain ⟨min, max, h_bounds, ⟨_, h_state⟩ | ⟨value, result, h_value, h_read, _, h_state⟩⟩ :=
    classify_eq_ok h
  · exact absurd h_state (by simp)
  · obtain rfl := State.stored.inj h_state
    exact ⟨h_bounds, value, h_value, h_read⟩

/-- A dice that has been rolled holds the roll. -/
theorem classify_rolled {attributes : List Node} {min max : Int64}
    (h : bounds attributes = .ok (min, max)) (returned : Int64) :
    classify attributes [.text (Numeral.writeInt64 (clamp min max returned))] =
      .ok (.stored ⟨min, max, clamp min max returned⟩) := by
  obtain ⟨-, -, -, -, -, h_order⟩ := bounds_eq_ok h
  have h_lower := le_clamp h_order returned
  have h_upper := clamp_le h_order returned
  rw [Int64.le_iff_toInt_le] at h_lower h_upper
  -- The answer was brought into the bounds, so comparing it with them is passed.
  have h_inside : ¬ (clamp min max returned < min ∨ max < clamp min max returned) := by
    rw [Int64.lt_iff_toInt_lt, Int64.lt_iff_toInt_lt]
    omega
  simp only [classify, h, bind, Except.bind, Numeral.readInt64?_writeInt64, if_neg h_inside]

/-- A dice that is worked out holds the roll, or is rolled now: the source is asked once, and its
    answer is brought into the bounds. -/
theorem resolve_run_eq_ok {σ : Type} {reader : Option (Source σ)} {attributes children : List Node}
    {roll : Roll} {s s' : σ} (h : (resolve reader attributes children).run s = (.ok roll, s')) :
    (classify attributes children = .ok (.stored roll) ∧ s' = s) ∨
      ∃ source min max, reader = some source ∧
        classify attributes children = .ok (.fresh min max) ∧
          roll = ⟨min, max, clamp min max (source.roll s min max).1⟩ ∧
            s' = (source.roll s min max).2 := by
  unfold resolve at h
  cases h_dice : classify attributes children with
  | error error =>
    rw [h_dice] at h
    exact absurd (Prod.mk.inj h).1 nofun
  | ok state =>
    rw [h_dice] at h
    cases state with
    | stored found =>
      obtain ⟨h_roll, rfl⟩ := Prod.mk.inj h
      rw [Except.ok.inj h_roll]
      exact .inl ⟨rfl, rfl⟩
    | fresh min max =>
      cases reader with
      -- A fresh dice needs a source to be worked out.
      | none => exact absurd (Prod.mk.inj h).1 nofun
      | some source =>
        obtain ⟨h_roll, rfl⟩ := Prod.mk.inj h
        exact .inr ⟨source, min, max, rfl, rfl, (Except.ok.inj h_roll).symm, rfl⟩

end Dice

/-! ## Completed bounds -/

namespace Submission

/-- A single bound of one or more is completed, and other bounds are kept. -/
theorem fullBounds_eq (attributes : List Node) :
    fullBounds attributes = attributes ∨ ∃ value sides, attributes = [.text value] ∧
      Numeral.readInt64? value = some sides ∧
        fullBounds attributes = ["1", Numeral.writeInt64 sides].map .text := by
  unfold fullBounds
  split
  · rename_i value
    split
    · rename_i sides h_read
      split
      · exact .inr ⟨value, sides, rfl, h_read, rfl⟩
      · exact .inl rfl
    · exact .inl rfl
  · exact .inl rfl

/-- Completed bounds are words. -/
theorem isWord_fullBounds (sides : Int64) :
    ∀ word ∈ ["1", Numeral.writeInt64 sides], Place.isWord false word.toList = true := by
  intro word h_mem
  rcases List.mem_pair.1 h_mem with rfl | rfl
  · decide
  · exact isWord_of_isResult (Numeral.isResult_writeInt64 sides)

end Submission

end DiceMarkup
