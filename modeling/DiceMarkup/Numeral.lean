/-
  DiceMarkup.Numeral

  Whole numbers of 64 bits as decimal text. A number is read with any count
  of leading zeros and an optional sign, and written with neither a plus sign
  nor leading zeros. Main statement: what is written reads back.
-/

namespace DiceMarkup.Numeral

/-- Why a text is not a number. -/
inductive Fault where
  | empty
  | invalidDigit
  | tooLarge
deriving DecidableEq

namespace Fault

def message : Fault → String
  | empty => "cannot parse integer from empty string"
  | invalidDigit => "invalid digit found in string"
  | tooLarge => "number too large to fit in target type"

end Fault

/-- Reads digits after a beginning of the given value. The first fault from the left is the one
    reported: a character that is no digit, or a digit that takes the value above the limit. -/
def readDigits (limit value : Nat) : List Char → Except Fault Nat
  | [] => .ok value
  | c :: cs =>
    if c.isDigit then
      let value := 10 * value + (c.toNat - '0'.toNat)
      if value ≤ limit then readDigits limit value cs else .error .tooLarge
    else .error .invalidDigit

/-- Reads a number without sign; a plus sign may precede it. -/
def readUInt64 : List Char → Except Fault UInt64
  | [] => .error .empty
  | ['+'] => .error .invalidDigit
  | '+' :: cs => (readDigits 0xFFFFFFFFFFFFFFFF 0 cs).map UInt64.ofNat
  | cs => (readDigits 0xFFFFFFFFFFFFFFFF 0 cs).map UInt64.ofNat

/-- Reads one digit or more, up to a limit. -/
def readMagnitude? (limit : Nat) (cs : List Char) : Option Nat :=
  if cs.isEmpty then none else (readDigits limit 0 cs).toOption

/-- Reads a signed number. There is one more below zero than above it. -/
def readInt64? (text : String) : Option Int64 :=
  match text.toList with
  | '-' :: cs => (readMagnitude? 0x8000000000000000 cs).map fun (n : Nat) => Int64.ofInt (-n)
  | '+' :: cs => (readMagnitude? 0x7FFFFFFFFFFFFFFF cs).map fun (n : Nat) => Int64.ofInt n
  | cs => (readMagnitude? 0x7FFFFFFFFFFFFFFF cs).map fun (n : Nat) => Int64.ofInt n

/-- The decimal text of a signed number. -/
def writeInt64 (value : Int64) : String :=
  value.toInt.repr

/-! ## Reading back -/

/-- Digits that stay within the limit are read to their value. -/
theorem readDigits_eq_ok (limit value : Nat) (cs : List Char)
    (digits : ∀ c ∈ cs, c.isDigit = true) (le : Nat.ofDigitChars 10 cs value ≤ limit) :
    readDigits limit value cs = .ok (Nat.ofDigitChars 10 cs value) := by
  induction cs generalizing value with
  | nil => rfl
  | cons c cs ih =>
    rw [Nat.ofDigitChars_cons] at le ⊢
    have grows : ∀ (ds : List Char) (v : Nat), v ≤ Nat.ofDigitChars 10 ds v := by
      intro ds
      induction ds with
      | nil => intro v; exact Nat.le_refl v
      | cons d ds ih => intro v; rw [Nat.ofDigitChars_cons]; exact Nat.le_trans (by omega) (ih _)
    -- The value so far is within the limit too, so the test at this digit passes.
    have := grows cs (10 * value + (c.toNat - '0'.toNat))
    simp only [readDigits, digits c List.mem_cons_self, if_true]
    rw [if_pos (by omega)]
    exact ih _ (fun d hd => digits d (List.mem_cons_of_mem _ hd)) le

/-- The digits of a number within the limit are read to that number. -/
theorem readMagnitude?_toDigits {limit n : Nat} (le : n ≤ limit) :
    readMagnitude? limit (Nat.toDigits 10 n) = some n := by
  have value : Nat.ofDigitChars 10 (Nat.toDigits 10 n) 0 = n :=
    Nat.ofDigitChars_toDigits (by decide) (by decide)
  have read := readDigits_eq_ok limit 0 (Nat.toDigits 10 n)
    (fun c hc => Nat.isDigit_of_mem_toDigits (by decide) (by decide) hc) (by rw [value]; exact le)
  rw [readMagnitude?, read, value]
  simp [Nat.toDigits_ne_nil, Except.toOption]

/-- A digit is no sign. -/
theorem ne_sign_of_isDigit {c : Char} (h : c.isDigit = true) : c ≠ '-' ∧ c ≠ '+' := by
  constructor <;> rintro rfl <;> revert h <;> decide

theorem readInt64?_writeInt64 (value : Int64) : readInt64? (writeInt64 value) = some value := by
  have lower := value.le_toInt
  have upper := value.toInt_lt
  have back : Int64.ofInt value.toInt = value := Int64.ofInt_toInt value
  unfold writeInt64 readInt64?
  cases sign : value.toInt with
  | negSucc n =>
    have text : (Int.negSucc n).repr.toList = '-' :: Nat.toDigits 10 (n + 1) := by
      simp [Int.repr, Nat.toList_repr]
    rw [text]
    have le : n + 1 ≤ 0x8000000000000000 := by rw [sign, Int.negSucc_eq] at lower; omega
    have eq : -((n + 1 : Nat) : Int) = value.toInt := by rw [sign, Int.negSucc_eq]; rfl
    simp only [readMagnitude?_toDigits le, Option.map_some, eq, back]
  | ofNat n =>
    have text : (Int.ofNat n).repr.toList = Nat.toDigits 10 n := by
      simp [Int.repr, Nat.toList_repr]
    have le : n ≤ 0x7FFFFFFFFFFFFFFF := by rw [sign, Int.ofNat_eq_natCast] at upper; omega
    have read := readMagnitude?_toDigits le
    have digit := fun c (hc : c ∈ Nat.toDigits 10 n) =>
      ne_sign_of_isDigit (Nat.isDigit_of_mem_toDigits (by decide) (by decide) hc)
    -- Both branches for a sign are void: the text starts with a digit.
    rw [text]
    split
    · rename_i cs eq; exact absurd rfl (digit '-' (eq ▸ List.mem_cons_self)).1
    · rename_i cs eq; exact absurd rfl (digit '+' (eq ▸ List.mem_cons_self)).2
    · rw [read, Option.map_some, ← Int.ofNat_eq_natCast, ← sign, back]

end DiceMarkup.Numeral
