/-
  DiceMarkup.Proofs.Period

  The outputs of the generator, in their order. A step adds an odd amount to the
  state, so the state comes to every 64-bit number before it comes back, and no
  two states are scrambled to the same output: each part of the scrambling can be
  undone. Main statement: from any seed on, every number is an output once, and
  after that the outputs start over.

  Pieces:
  * `blend_injective`, `mul_injective` — the parts of the scrambling
  * `scramble_injective` — no two states have the same output
  * `after`, `output` — the generator after some outputs, and the next one
  * `state_after`, `after_add` — the states on the way
  * `output_bijective` — every number is an output, and only once
  * `outputs_full_period` — the outputs from a seed on
-/
import DiceMarkup.Rolling.SplitMix
import Mathlib

namespace DiceMarkup.Rolling.SplitMix

open Function (Bijective Injective)

/-! ## Scrambling -/

/-- Only zero is the same after a shift to the right. -/
theorem eq_zero_of_shiftRight_eq {n shift : Nat} (h_shift : 0 < shift) (h : n >>> shift = n) :
    n = 0 := by
  by_contra h_some
  have h_less : n >>> shift < n := by
    rw [Nat.shiftRight_eq_div_pow]
    exact Nat.div_lt_self (Nat.pos_of_ne_zero h_some) (Nat.one_lt_two_pow h_shift.ne')
  omega

/-- Numbers stay apart when the upper bits are blended into the lower ones. -/
theorem blend_injective {shift : UInt64} (h_shift : 0 < shift.toNat % 64) :
    Injective fun word : UInt64 => word ^^^ (word >>> shift) := by
  intro a b h
  generalize h_amount : shift.toNat % 64 = amount at h_shift
  have h_blends : a.toNat ^^^ a.toNat >>> amount = b.toNat ^^^ b.toNat >>> amount := by
    simpa [h_amount] using congrArg UInt64.toNat h
  -- The bits in which the two numbers differ stay the same when they are shifted.
  have h_same : (a.toNat ^^^ b.toNat) >>> amount = a.toNat ^^^ b.toNat := by
    rw [Nat.shiftRight_xor_distrib]
    generalize a.toNat >>> amount = a' at *
    generalize b.toNat >>> amount = b' at *
    calc a' ^^^ b'
        = a.toNat ^^^ ((a.toNat ^^^ a') ^^^ b') := by
          rw [← Nat.xor_assoc, ← Nat.xor_assoc, Nat.xor_self, Nat.zero_xor]
      _ = a.toNat ^^^ ((b.toNat ^^^ b') ^^^ b') := by rw [h_blends]
      _ = a.toNat ^^^ b.toNat := by rw [Nat.xor_assoc b.toNat, Nat.xor_self, Nat.xor_zero]
  exact UInt64.toNat_inj.1 (Nat.xor_eq_zero_iff.1 (eq_zero_of_shiftRight_eq h_shift h_same))

/-- Numbers stay apart when they are multiplied by a number that has an inverse. -/
theorem mul_injective {factor inverse : UInt64} (h : factor * inverse = 1) :
    Injective fun word : UInt64 => word * factor := by
  intro a b h_same
  have h_back : ∀ word : UInt64, word * factor * inverse = word := fun word => by
    rw [UInt64.mul_assoc, h, UInt64.mul_one]
  rw [← h_back a, ← h_back b]
  exact congrArg (· * inverse) h_same

/-- No two states have the same output. -/
theorem scramble_injective : Injective scramble := by
  have h_first : Injective fun word : UInt64 => word ^^^ (word >>> 30) :=
    blend_injective (by decide)
  have h_times : (0xBF58476D1CE4E5B9 : UInt64) * 0x96DE1B173F119089 = 1 := by decide
  have h_second : Injective fun word : UInt64 => word ^^^ (word >>> 27) :=
    blend_injective (by decide)
  have h_times' : (0x94D049BB133111EB : UInt64) * 0x319642B2D24D8EC3 = 1 := by decide
  have h_third : Injective fun word : UInt64 => word ^^^ (word >>> 31) :=
    blend_injective (by decide)
  exact h_third.comp ((mul_injective h_times').comp
    (h_second.comp ((mul_injective h_times).comp h_first)))

/-! ## Outputs in their order -/

/-- The generator after so many outputs. -/
def after (g : SplitMix) : Nat → SplitMix
  | 0 => g
  | n + 1 => (g.after n).next.2

/-- The output that comes after so many others. -/
def output (g : SplitMix) (n : Nat) : UInt64 :=
  (g.after n).next.1

@[simp] theorem after_zero (g : SplitMix) : g.after 0 = g := rfl

theorem after_succ (g : SplitMix) (n : Nat) : g.after (n + 1) = (g.after n).next.2 := rfl

theorem after_add (g : SplitMix) (m n : Nat) : g.after (m + n) = (g.after m).after n := by
  induction n with
  | zero => rfl
  | succ n ih => rw [← Nat.add_assoc, after_succ, after_succ, ih]

/-- Each output takes the state one increment further. -/
theorem state_after (g : SplitMix) (n : Nat) :
    (g.after n).state = g.state + UInt64.ofNat n * increment := by
  induction n with
  | zero => simp
  | succ n ih =>
    rw [after_succ, UInt64.ofNat_add, UInt64.add_mul, ← UInt64.add_assoc, ← ih, UInt64.ofNat_one,
      UInt64.one_mul]
    rfl

/-- The output after `n` others is the one of the state that is `n` increments further on. -/
theorem output_eq (g : SplitMix) (n : Nat) :
    g.output n = scramble (g.state + increment + UInt64.ofNat n * increment) := by
  rw [UInt64.add_assoc, UInt64.add_comm increment, ← UInt64.add_assoc, ← state_after]
  rfl

/-- The generator is back at its state after as many outputs as there are numbers. -/
theorem after_size (g : SplitMix) : g.after UInt64.size = g := by
  have h_state := state_after g UInt64.size
  have h_none : UInt64.ofNat UInt64.size = 0 := by decide
  rw [h_none, UInt64.zero_mul, UInt64.add_zero] at h_state
  exact congrArg SplitMix.mk h_state

/-- Every number is an output, and after one count of others only. -/
theorem output_bijective (g : SplitMix) : Bijective fun n : UInt64 => g.output n.toNat := by
  have h_inverse : increment * stepsPerUnit = 1 := by decide
  -- Among finitely many numbers, outputs that are apart are all the numbers.
  refine Finite.injective_iff_bijective.1 fun m n h => ?_
  rw [output_eq, output_eq, UInt64.ofNat_toNat, UInt64.ofNat_toNat] at h
  exact mul_injective h_inverse ((UInt64.add_right_inj _).1 (scramble_injective h))

/-- From any seed on, each 64-bit number is one and only one of the first 2^64 outputs, and the
    outputs behind them are the same again. -/
theorem outputs_full_period (seed : UInt64) :
    (∀ word, ∃! n, n < UInt64.size ∧ output ⟨seed⟩ n = word) ∧
      ∀ n, output ⟨seed⟩ (n + UInt64.size) = output ⟨seed⟩ n := by
  constructor
  · intro word
    obtain ⟨n, h_output, h_unique⟩ := (output_bijective ⟨seed⟩).existsUnique word
    refine ⟨n.toNat, ⟨n.toNat_lt, h_output⟩, ?_⟩
    rintro m ⟨h_less, h_same⟩
    have h_count : (UInt64.ofNat m).toNat = m := UInt64.toNat_ofNat_of_lt' h_less
    have h_output' : output ⟨seed⟩ (UInt64.ofNat m).toNat = word := by rw [h_count, h_same]
    rw [← h_count, h_unique (UInt64.ofNat m) h_output']
  · intro n
    rw [output, Nat.add_comm, after_add, after_size, output]

end DiceMarkup.Rolling.SplitMix
