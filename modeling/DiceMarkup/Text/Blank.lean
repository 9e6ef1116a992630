/-
  DiceMarkup.Text.Blank

  White space between the words of a tag: the characters with the Unicode
  property `White_Space`, stable since Unicode 6.3. The zero-width space and
  the byte order mark are not among them.
-/

namespace DiceMarkup.Text

/-- Closed ranges of code points, ascending and apart. -/
def blankRanges : List (Nat × Nat) :=
  [(0x09, 0x0D), (0x20, 0x20), (0x85, 0x85), (0xA0, 0xA0), (0x1680, 0x1680), (0x2000, 0x200A),
    (0x2028, 0x2029), (0x202F, 0x202F), (0x205F, 0x205F), (0x3000, 0x3000)]

/-- A character of Unicode white space. -/
def isBlank (c : Char) : Bool :=
  blankRanges.any fun range => range.1 ≤ c.toNat && c.toNat ≤ range.2

/-- The text without the white space at its two ends. -/
def trimBlank (cs : List Char) : List Char :=
  ((cs.dropWhile isBlank).reverse.dropWhile isBlank).reverse

/-! ## What the table holds -/

/-- The table adds to the white space of ASCII and takes nothing away. -/
theorem isBlank_of_isWhitespace {c : Char} (h : c.isWhitespace = true) : isBlank c = true := by
  simp only [Char.isWhitespace, Bool.or_eq_true, decide_eq_true_eq] at h
  rcases h with ((h | h) | h) | h <;> subst h <;> decide

/-- A letter of ASCII is no white space. -/
theorem isBlank_eq_false_of_isAlpha {c : Char} (h : c.isAlpha = true) : isBlank c = false := by
  have range : (65 ≤ c.toNat ∧ c.toNat ≤ 90) ∨ (97 ≤ c.toNat ∧ c.toNat ≤ 122) := by
    rcases Bool.or_eq_true_iff.1 h with upper | lower
    · exact .inl (of_decide_eq_true upper)
    · obtain ⟨low, high⟩ := Bool.and_eq_true_iff.1 lower
      exact .inr ⟨of_decide_eq_true low, of_decide_eq_true high⟩
  simp [isBlank, blankRanges]
  omega

/-- A digit of ASCII is no white space. -/
theorem isBlank_eq_false_of_isDigit {c : Char} (h : c.isDigit = true) : isBlank c = false := by
  have range : 48 ≤ c.toNat ∧ c.toNat ≤ 57 := by
    simpa [Char.isDigit, Char.le_def, UInt32.le_iff_toNat_le] using h
  simp [isBlank, blankRanges]
  omega

/-- The three brackets of the markup are not white space, nor is the zero-width space. -/
example : isBlank '[' = false ∧ isBlank ']' = false ∧ isBlank '(' = false ∧ isBlank ')' = false
    ∧ isBlank '\u200b' = false := by decide

end DiceMarkup.Text
