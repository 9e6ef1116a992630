/-
  DiceMarkup.Rolling.SplitMix

  A seeded generator of 64-bit numbers. Its state steps by a fixed odd
  amount, so it visits every number before it repeats, and each state is
  scrambled into an output.

  A number in given bounds is drawn by rejection: outputs at or above a
  limit are thrown away, so that every number in the bounds is equally
  likely. The search for an output below the limit ends because the state
  meets zero on its way, and zero is scrambled to zero.
-/

namespace DiceMarkup.Rolling

/-- The generator, which is its state. -/
structure SplitMix where
  state : UInt64
deriving DecidableEq

namespace SplitMix

/-- What the state grows by at each step. -/
def increment : UInt64 := 0x9E3779B97F4A7C15

/-- The inverse of the increment among the 64-bit numbers. -/
def stepsPerUnit : UInt64 := 0xF1DE83E19937733D

/-- The output that belongs to a state. -/
def scramble (state : UInt64) : UInt64 :=
  let z := (state ^^^ (state >>> 30)) * 0xBF58476D1CE4E5B9
  let z := (z ^^^ (z >>> 27)) * 0x94D049BB133111EB
  z ^^^ (z >>> 31)

/-- The next output. -/
def next (g : SplitMix) : UInt64 × SplitMix :=
  let state := g.state + increment
  (scramble state, ⟨state⟩)

/-! ## Drawing below a limit -/

theorem scramble_zero : scramble 0 = 0 := by decide

/-- How many steps follow the next one until the state is zero. -/
def stepsToZero (g : SplitMix) : UInt64 :=
  (0 - (g.state + increment)) * stepsPerUnit

theorem stepsToZero_step (g : SplitMix) :
    stepsToZero ⟨g.state + increment⟩ = stepsToZero g - 1 := by
  have inverse : increment * stepsPerUnit = 1 := by decide
  simp only [stepsToZero]
  grind

theorem state_eq_zero_of_stepsToZero {g : SplitMix} (h : stepsToZero g = 0) :
    g.state + increment = 0 := by
  have inverse : stepsPerUnit * increment = 1 := by decide
  have : stepsToZero g * increment = 0 - (g.state + increment) := by
    simp only [stepsToZero]
    grind
  rw [h] at this
  grind

/-- A rejected output brings the state one step closer to zero. -/
theorem stepsToZero_lt {g : SplitMix} {limit : UInt64} (pos : 0 < limit)
    (rejected : ¬ g.next.1 < limit) : (stepsToZero g.next.2).toNat < (stepsToZero g).toNat := by
  -- No step left would mean that the output is the one of zero, which no limit rejects.
  have nonzero : stepsToZero g ≠ 0 := by
    intro zero
    apply rejected
    simp only [next, state_eq_zero_of_stepsToZero zero, scramble_zero, pos]
  simp only [next, stepsToZero_step]
  rw [UInt64.lt_iff_toNat_lt] at pos
  have : (stepsToZero g).toNat ≠ 0 := fun h => nonzero (UInt64.toNat_inj.1 (by simpa using h))
  rw [UInt64.toNat_sub_of_le _ _ (by rw [UInt64.le_iff_toNat_le]; simp; omega)]
  simp
  omega

/-- The first output below a limit. -/
def nextBelow (limit : UInt64) (pos : 0 < limit) (g : SplitMix) : UInt64 × SplitMix :=
  if g.next.1 < limit then g.next else nextBelow limit pos g.next.2
termination_by g.stepsToZero.toNat
decreasing_by exact stepsToZero_lt pos ‹_›

/-! ## Drawing within bounds -/

/-- The greatest number of outputs, counted from zero, that falls evenly on `faces` faces. -/
def fairLimit (faces : UInt64) : UInt64 :=
  0xFFFFFFFFFFFFFFFF - 0xFFFFFFFFFFFFFFFF % faces

theorem fairLimit_pos {faces : UInt64} (pos : 0 < faces) : 0 < fairLimit faces := by
  rw [UInt64.lt_iff_toNat_lt] at pos ⊢
  have upper := faces.toNat_lt
  have := Nat.mod_lt 0xFFFFFFFFFFFFFFFF pos
  rw [fairLimit, UInt64.toNat_sub_of_le _ _ (by
    rw [UInt64.le_iff_toNat_le, UInt64.toNat_mod]; exact Nat.mod_le _ _)]
  simp at *
  omega

/-- The number of numbers from `min` to `max`. -/
def faceCount (min max : Int64) : Nat :=
  (max.toInt - min.toInt + 1).toNat

theorem faceCount_pos {min max : Int64} (h : min < max) : 0 < faceCount min max := by
  rw [Int64.lt_iff_toInt_lt] at h
  simp only [faceCount]
  omega

/-- A number from `min` to `max`, each as likely as any other. Nothing is drawn if there is no
    choice. If every 64-bit number is in the bounds, an output is taken as it is, as a signed
    number. -/
def roll (g : SplitMix) (min max : Int64) : Int64 × SplitMix :=
  if some_choice : min < max then
    if fits : faceCount min max < UInt64.size then
      let faces := UInt64.ofNatLT (faceCount min max) fits
      have pos : 0 < faces := by
        rw [UInt64.lt_iff_toNat_lt]; simpa [faces] using faceCount_pos some_choice
      -- Outputs below the limit fall on every face equally often.
      let (drawn, g) := nextBelow (fairLimit faces) (fairLimit_pos pos) g
      (Int64.ofInt (min.toInt + (drawn % faces).toNat), g)
    else
      let (drawn, g) := g.next
      (drawn.toInt64, g)
  else (min, g)

end SplitMix

end DiceMarkup.Rolling
