/-
  DiceMarkup.Proofs.Drawing

  Numbers that are drawn within bounds. Outputs of the generator are rejected
  until one is below a limit, and the faces take turns in standing for the
  outputs below it. The limit is a multiple of the number of faces, so that each
  face stands for as many outputs as any other. The search for an output below
  the limit ends, from whatever state: at the latest with the output zero.

  Main statement: a roll is the meaning of the first output that is accepted, it
  lies within the bounds, all numbers on the way to it are the whole numbers that
  they stand for, and no face is favoured.

  Pieces:
  * `nextBelow_eq` — the search for an output below a limit
  * `Draws` — a roll and the outputs that are used up for it
  * `face`, `Fair` — what outputs stand for, and evenly so
  * `card_face_eq` — the outputs that stand for one face
  * `roll_draws`, `roll_draws_signed` — with fewer faces than outputs, and with as many
  * `roll_fair` — all rolls
-/
import DiceMarkup.Proofs.Period

namespace DiceMarkup.Rolling.SplitMix

open Function (Bijective)

/-! ## Rejection -/

/-- The result of a draw and the generator after it: the first output that is accepted, with its
    meaning. Fewer outputs are rejected than there are numbers. -/
def Draws (g : SplitMix) (accepted : UInt64 → Prop) (meaning : UInt64 → Int64)
    (drawn : Int64 × SplitMix) : Prop :=
  ∃ rejected < UInt64.size, (∀ i < rejected, ¬ accepted (g.output i)) ∧
    accepted (g.output rejected) ∧ drawn = (meaning (g.output rejected), g.after (rejected + 1))

theorem after_next (g : SplitMix) (n : Nat) : g.next.2.after n = g.after (n + 1) := by
  rw [Nat.add_comm, after_add]
  rfl

theorem output_next (g : SplitMix) (n : Nat) : g.next.2.output n = g.output (n + 1) := by
  rw [output, after_next, output]

/-- The search finds the first output below the limit. The induction is on the steps to zero, which
    are no fewer than the outputs that are rejected. -/
theorem nextBelow_eq {limit : UInt64} (pos : 0 < limit) (g : SplitMix) :
    ∃ rejected ≤ g.stepsToZero.toNat, (∀ i < rejected, ¬ g.output i < limit) ∧
      g.output rejected < limit ∧
        nextBelow limit pos g = (g.output rejected, g.after (rejected + 1)) := by
  fun_induction nextBelow limit pos g with
  | case1 g h_below => exact ⟨0, Nat.zero_le _, nofun, h_below, rfl⟩
  | case2 g h_reject ih =>
    obtain ⟨rejected, h_steps, h_before, h_below, h_next⟩ := ih
    have h_closer := stepsToZero_lt pos h_reject
    rw [output_next] at h_below h_next
    rw [after_next] at h_next
    refine ⟨rejected + 1, by omega, fun i h_i => ?_, h_below, h_next⟩
    cases i with
    | zero => exact h_reject
    | succ i => rw [← output_next]; exact h_before i (by omega)

/-! ## Faces -/

/-- What an output stands for: the faces take turns, from the lowest one on. -/
def face (min : Int64) (faces drawn : UInt64) : Int64 :=
  Int64.ofInt (min.toInt + (drawn % faces).toNat)

/-- Below the limit each number from `min` to `max` stands for as many outputs as any other, and all
    numbers are the ones that they would be without a bound on their size. -/
structure Fair (min max : Int64) (faces limit : UInt64) : Prop where
  faces_eq : (faces.toNat : Int) = max.toInt - min.toInt + 1
  limit_eq : limit.toNat + (UInt64.size - 1) % faces.toNat = UInt64.size - 1
  face_eq : ∀ drawn, (face min faces drawn).toInt = min.toInt + (drawn.toNat % faces.toNat : Nat)
  limit_pos : 0 < limit.toNat
  dvd : faces.toNat ∣ limit.toNat
  evenly : ∀ value, min ≤ value → value ≤ max →
    {drawn | drawn < limit ∧ face min faces drawn = value}.ncard = limit.toNat / faces.toNat

section Faces

variable {min max : Int64}

/-- The faces are counted as they are. -/
theorem faceCount_eq (h : min < max) : (faceCount min max : Int) = max.toInt - min.toInt + 1 := by
  rw [Int64.lt_iff_toInt_lt] at h
  simp only [faceCount]
  omega

theorem faceCount_le (h : min < max) : faceCount min max ≤ UInt64.size := by
  have h_count := faceCount_eq h
  have h_lower := min.le_toInt
  have h_upper := max.toInt_lt
  have h_size : UInt64.size = 0x10000000000000000 := rfl
  omega

theorem fairLimit_add (faces : UInt64) :
    (fairLimit faces).toNat + (UInt64.size - 1) % faces.toNat = UInt64.size - 1 := by
  have h_le : (0xFFFFFFFFFFFFFFFF : UInt64) % faces ≤ 0xFFFFFFFFFFFFFFFF := by
    rw [UInt64.le_iff_toNat_le, UInt64.toNat_mod]
    exact Nat.mod_le _ _
  have h_mod := Nat.mod_le (UInt64.size - 1) faces.toNat
  rw [fairLimit, UInt64.toNat_sub_of_le _ _ h_le, UInt64.toNat_mod]
  simp at h_mod ⊢
  omega

/-- What is cut off above the limit is a remainder. -/
theorem dvd_fairLimit (faces : UInt64) : faces.toNat ∣ (fairLimit faces).toNat := by
  have h_limit : (fairLimit faces).toNat = UInt64.size - 1 - (UInt64.size - 1) % faces.toNat :=
    Nat.eq_sub_of_add_eq (fairLimit_add faces)
  rw [h_limit]
  exact Nat.dvd_sub_mod _

/-- No face is beyond the bounds. -/
theorem face_eq {faces : UInt64} (h : min < max)
    (h_faces : (faces.toNat : Int) = max.toInt - min.toInt + 1) (drawn : UInt64) :
    (face min faces drawn).toInt = min.toInt + (drawn.toNat % faces.toNat : Nat) := by
  have h_lower := min.le_toInt
  have h_upper := max.toInt_lt
  rw [Int64.lt_iff_toInt_lt] at h
  have h_less : drawn.toNat % faces.toNat < faces.toNat := Nat.mod_lt _ (by omega)
  rw [face, UInt64.toNat_mod]
  exact Int64.toInt_ofInt_of_le (by omega) (by omega)

/-- As many outputs below the limit stand for a face as the limit has multiples of the faces. -/
theorem card_face_eq {faces : UInt64} (h : min < max)
    (h_faces : (faces.toNat : Int) = max.toInt - min.toInt + 1) {value : Int64}
    (h_lower : min ≤ value) (h_upper : value ≤ max) :
    {drawn | drawn < fairLimit faces ∧ face min faces drawn = value}.ncard =
      (fairLimit faces).toNat / faces.toNat := by
  rw [Int64.le_iff_toInt_le] at h_lower h_upper
  obtain ⟨place, h_place⟩ := Int.eq_ofNat_of_zero_le (Int.sub_nonneg.2 h_lower)
  have h_less : place < faces.toNat := by omega
  -- As numbers, the outputs that stand for a face are those below the limit with one remainder.
  have h_image : UInt64.toNat '' {drawn | drawn < fairLimit faces ∧ face min faces drawn = value} =
      (Finset.range (fairLimit faces).toNat).filter (· ≡ place [MOD faces.toNat]) := by
    ext n
    simp only [Set.mem_image, Set.mem_ofPred_eq, Finset.coe_filter, Finset.mem_range, Nat.ModEq,
      ← Int64.toInt_inj, face_eq h h_faces, UInt64.lt_iff_toNat_lt, Nat.mod_eq_of_lt h_less]
    constructor
    · rintro ⟨drawn, ⟨h_below, h_face⟩, rfl⟩
      exact ⟨h_below, by omega⟩
    · rintro ⟨h_below, h_mod⟩
      have h_drawn : (UInt64.ofNat n).toNat = n :=
        UInt64.toNat_ofNat_of_lt' (h_below.trans (fairLimit faces).toNat_lt_size)
      exact ⟨UInt64.ofNat n, by rw [h_drawn]; omega, h_drawn⟩
  have h_injective : Function.Injective UInt64.toNat := fun _ _ h => UInt64.toNat_inj.1 h
  rw [← Set.ncard_image_of_injective _ h_injective, h_image, Set.ncard_coe_finset,
    ← Nat.count_eq_card_filter_range, Nat.count_modEq_card _ (by omega),
    Nat.mod_eq_zero_of_dvd (dvd_fairLimit faces), if_neg (Nat.not_lt_zero _), Nat.add_zero]

/-- With fewer faces than outputs, the limit is fair. -/
theorem fair_fairLimit {faces : UInt64} (h : min < max)
    (h_faces : faces.toNat = faceCount min max) :
    Fair min max faces (fairLimit faces) := by
  have h_count : (faces.toNat : Int) = max.toInt - min.toInt + 1 := by rw [h_faces, faceCount_eq h]
  have h_some : 0 < faces := by
    rw [UInt64.lt_iff_toNat_lt, h_faces]
    exact faceCount_pos h
  exact
    { faces_eq := h_count
      limit_eq := fairLimit_add faces
      face_eq := face_eq h h_count
      limit_pos := UInt64.lt_iff_toNat_lt.1 (fairLimit_pos h_some)
      dvd := dvd_fairLimit faces
      evenly := fun _ h_lower h_upper => card_face_eq h h_count h_lower h_upper }

end Faces

/-! ## Rolls -/

section Rolls

variable {g : SplitMix} {min max : Int64}

/-- With fewer faces than outputs, the first output below the limit is taken. -/
theorem roll_draws (h : min < max) (h_fits : faceCount min max < UInt64.size) :
    ∃ faces : UInt64, faces.toNat = faceCount min max ∧
      g.Draws (· < fairLimit faces) (face min faces) (g.roll min max) := by
  fun_cases roll g min max with
  | case1 _ _ faces pos drawn g' h_found =>
    obtain ⟨rejected, h_steps, h_before, h_below, h_next⟩ := nextBelow_eq (fairLimit_pos pos) g
    obtain ⟨rfl, rfl⟩ := Prod.mk.inj (h_found.symm.trans h_next)
    exact ⟨faces, by simp [faces], rejected, h_steps.trans_lt (UInt64.toNat_lt _), h_before,
      h_below, rfl⟩
  | case2 _ h_all => exact absurd h_fits h_all
  | case3 h_none => exact absurd h h_none

/-- With as many faces as outputs, the next output is taken as a signed number. -/
theorem roll_draws_signed (h : min < max) (h_all : faceCount min max = UInt64.size) :
    g.Draws (fun _ => True) UInt64.toInt64 (g.roll min max) := by
  fun_cases roll g min max with
  | case1 _ h_fits => exact absurd h_all h_fits.ne
  | case2 _ _ drawn g' h_next =>
    obtain ⟨rfl, rfl⟩ := Prod.mk.inj h_next
    exact ⟨0, by decide, nofun, trivial, rfl⟩
  | case3 h_none => exact absurd h h_none

/-- Every signed number is one output. -/
theorem toInt64_bijective : Bijective UInt64.toInt64 := by
  refine ⟨fun a b h => ?_, fun value => ⟨value.toUInt64, value.toInt64_toUInt64⟩⟩
  rw [← a.toUInt64_toInt64, h, b.toUInt64_toInt64]

/-- What is drawn is the meaning of some output. -/
theorem Draws.exists_output {accepted : UInt64 → Prop} {meaning : UInt64 → Int64}
    {drawn : Int64 × SplitMix} (h : g.Draws accepted meaning drawn) :
    ∃ word, drawn.1 = meaning word := by
  obtain ⟨rejected, -, -, -, rfl⟩ := h
  exact ⟨_, rfl⟩

/-- A roll stays within its bounds. -/
theorem roll_mem (g : SplitMix) (h : min < max) :
    min ≤ (g.roll min max).1 ∧ (g.roll min max).1 ≤ max := by
  rcases (faceCount_le h).lt_or_eq with h_fits | h_all
  · obtain ⟨faces, h_faces, h_draws⟩ := roll_draws (g := g) h h_fits
    have h_fair := fair_fairLimit h h_faces
    obtain ⟨word, h_word⟩ := h_draws.exists_output
    have h_count := h_fair.faces_eq
    have h_face := h_fair.face_eq word
    rw [Int64.lt_iff_toInt_lt] at h
    have h_less : word.toNat % faces.toNat < faces.toNat := Nat.mod_lt _ (by omega)
    rw [h_word, Int64.le_iff_toInt_le, Int64.le_iff_toInt_le]
    omega
  -- With as many faces as there are numbers, nothing is beyond the bounds.
  · have h_count := faceCount_eq h
    have h_size : UInt64.size = 0x10000000000000000 := rfl
    have h_lower := min.le_toInt
    have h_upper := max.toInt_lt
    have h_result := (g.roll min max).1.le_toInt
    have h_result' := (g.roll min max).1.toInt_lt
    rw [Int64.le_iff_toInt_le, Int64.le_iff_toInt_le]
    omega

end Rolls

/-- From every state on, a roll comes to an end, stays within its bounds and favours no face, for
    bounds of every width. -/
theorem roll_fair (g : SplitMix) {min max : Int64} (h : min < max) :
    (faceCount min max : Int) = max.toInt - min.toInt + 1 ∧ faceCount min max ≤ UInt64.size ∧
      (min ≤ (g.roll min max).1 ∧ (g.roll min max).1 ≤ max) ∧
      (faceCount min max < UInt64.size → ∃ faces limit, Fair min max faces limit ∧
        g.Draws (· < limit) (face min faces) (g.roll min max)) ∧
      (faceCount min max = UInt64.size → Bijective UInt64.toInt64 ∧
        g.Draws (fun _ => True) UInt64.toInt64 (g.roll min max)) := by
  refine ⟨faceCount_eq h, faceCount_le h, roll_mem g h, fun h_fits => ?_, fun h_all => ?_⟩
  · obtain ⟨faces, h_faces, h_draws⟩ := roll_draws (g := g) h h_fits
    exact ⟨faces, fairLimit faces, fair_fairLimit h h_faces, h_draws⟩
  · exact ⟨toInt64_bijective, roll_draws_signed h h_all⟩

/-- One face more than half of the outputs, so that nearly half of them are rejected; and a face for
    each output. -/
theorem roll_fair_wide :
    (Int64.minValue < 0 ∧ faceCount Int64.minValue 0 < UInt64.size ∧
      ∃ faces limit, Fair Int64.minValue 0 faces limit ∧
        Draws ⟨42⟩ (· < limit) (face Int64.minValue faces) (roll ⟨42⟩ Int64.minValue 0)) ∧
      Int64.minValue < Int64.maxValue ∧ faceCount Int64.minValue Int64.maxValue = UInt64.size ∧
        Bijective UInt64.toInt64 ∧
          Draws ⟨42⟩ (fun _ => True) UInt64.toInt64 (roll ⟨42⟩ Int64.minValue Int64.maxValue) := by
  have h_half : Int64.minValue < 0 := by decide
  have h_fits : faceCount Int64.minValue 0 < UInt64.size := by decide
  have h_full : Int64.minValue < Int64.maxValue := by decide
  have h_all : faceCount Int64.minValue Int64.maxValue = UInt64.size := by decide
  obtain ⟨-, -, -, h_draws, -⟩ := roll_fair ⟨42⟩ h_half
  obtain ⟨-, -, -, -, h_draws'⟩ := roll_fair ⟨42⟩ h_full
  exact ⟨⟨h_half, h_fits, h_draws h_fits⟩, h_full, h_all, h_draws' h_all⟩

end DiceMarkup.Rolling.SplitMix
