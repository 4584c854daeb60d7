import Mathlib.Analysis.SpecialFunctions.Trigonometric.Angle
import Mathlib.Analysis.SpecialFunctions.Trigonometric.Bounds
import OneBitSDR.Signal.Phase

set_option autoImplicit false

/-! # Phases as angles

A word of `w` bits stands for the angle of that many `2^w`-th parts of a full turn. Sums of words
are sums of angles, because a carry out of the word is a full turn; the upper bits give the angle up
to one of their parts, and the upper two the symmetries of the sine.
-/

namespace Signal

open Real

variable {w : ℕ}

/-- The angle of a phase, in radians. -/
noncomputable def angle (phase : BitVec w) : ℝ := 2 * π * (phase.toNat / 2 ^ w)

/-! ## Sums -/

/-- A carry out of the word is a full turn. -/
theorem coe_angle_add (a b : BitVec w) :
    (angle (a + b) : Real.Angle) = (angle a : Real.Angle) + angle b := by
  have hne : (2 : ℝ) ^ w ≠ 0 := by positivity
  have hsum : (a.toNat : ℝ) + b.toNat
      = ((a + b).toNat : ℝ) + 2 ^ w * ((a.toNat + b.toNat) / 2 ^ w : ℕ) := by
    rw [BitVec.toNat_add]
    exact_mod_cast (Nat.mod_add_div (a.toNat + b.toNat) (2 ^ w)).symm
  rw [← Angle.coe_add, Angle.angle_eq_iff_two_pi_dvd_sub]
  refine ⟨-((a.toNat + b.toNat) / 2 ^ w : ℕ), ?_⟩
  have hdiv : angle (a + b) - (angle a + angle b)
      = 2 * π * ((((a + b).toNat : ℝ) - (a.toNat + b.toNat)) / 2 ^ w) := by
    unfold angle
    ring
  rw [hdiv, hsum, sub_add_cancel_left, neg_div, mul_div_cancel_left₀ _ hne, Int.cast_neg,
    Int.cast_natCast]

/-- Phases as angles up to full turns. -/
noncomputable def turn (w : ℕ) : BitVec w →+ Real.Angle where
  toFun phase := angle phase
  map_zero' := by simp [angle]
  map_add' := coe_angle_add

theorem turn_apply (phase : BitVec w) : turn w phase = (angle phase : Real.Angle) := rfl

/-- The angle of a phase with increments added to it. -/
theorem coe_angle_sum (phase : BitVec w) (u : ℕ → BitVec w) (n : ℕ) :
    (angle (phase + ∑ k ∈ Finset.range n, u k) : Real.Angle)
      = ((angle phase + ∑ k ∈ Finset.range n, angle (u k) : ℝ) : Real.Angle) := by
  rw [← turn_apply, map_add, map_sum, Angle.coe_add, turn_apply]
  congr 1
  induction n with
  | zero => simp
  | succ n ih => rw [Finset.sum_range_succ, Finset.sum_range_succ, ih, Angle.coe_add, turn_apply]

/-! ## The upper bits -/

/-- The upper bits of a phase give its angle up to one part. -/
theorem angle_upper_bounds {t : ℕ} (h : t ≤ w) (phase : BitVec w) :
    angle (upper t phase) ≤ angle phase ∧
      angle phase < angle (upper t phase) + 2 * π / 2 ^ t := by
  have hpow : (2 : ℝ) ^ w = 2 ^ t * 2 ^ (w - t) := by rw [← pow_add, Nat.add_sub_cancel' h]
  have hpos : (0 : ℝ) < 2 ^ (w - t) := by positivity
  have hpos' : (0 : ℝ) < 2 ^ t := by positivity
  have hupper : (upper t phase).toNat = phase.toNat / 2 ^ (w - t) := by
    rw [toNat_upper]
    refine Nat.mod_eq_of_lt (Nat.div_lt_of_lt_mul ?_)
    rw [← pow_add, Nat.sub_add_cancel h]
    exact phase.isLt
  have hlow : ((upper t phase).toNat : ℝ) * 2 ^ (w - t) ≤ phase.toNat := by
    rw [hupper]
    exact_mod_cast Nat.div_mul_le_self _ _
  have hhigh : (phase.toNat : ℝ) < ((upper t phase).toNat + 1) * 2 ^ (w - t) := by
    rw [hupper]
    rw [mul_comm]
    exact_mod_cast Nat.lt_mul_div_succ phase.toNat (show 0 < 2 ^ (w - t) by positivity)
  have hle : ((upper t phase).toNat : ℝ) / 2 ^ t ≤ phase.toNat / 2 ^ w := by
    rw [hpow, ← div_div, div_right_comm]
    exact div_le_div_of_nonneg_right ((le_div_iff₀ hpos).mpr hlow) hpos'.le
  have hlt : (phase.toNat : ℝ) / 2 ^ w < ((upper t phase).toNat + 1) / 2 ^ t := by
    rw [hpow, ← div_div, div_right_comm]
    exact div_lt_div_of_pos_right ((div_lt_iff₀ hpos).mpr hhigh) hpos'
  unfold angle
  constructor
  · exact mul_le_mul_of_nonneg_left hle (by positivity)
  · calc 2 * π * (phase.toNat / 2 ^ w)
        < 2 * π * (((upper t phase).toNat + 1) / 2 ^ t) :=
          mul_lt_mul_of_pos_left hlt (by positivity)
      _ = 2 * π * ((upper t phase).toNat / 2 ^ t) + 2 * π / 2 ^ t := by ring

/-- The middle of the part is half a part away at most. -/
theorem abs_middle_sub_le {t : ℕ} (h : t ≤ w) (phase : BitVec w) :
    |angle (upper t phase) + π / 2 ^ t - angle phase| ≤ π / 2 ^ t := by
  obtain ⟨hlow, hhigh⟩ := angle_upper_bounds h phase
  have hhalves : 2 * π / (2 : ℝ) ^ t = π / 2 ^ t + π / 2 ^ t := by ring
  rw [abs_le]
  constructor <;> linarith

/-! ## Quadrants -/

/-- An angle by its quadrant and the angle within it. -/
theorem angle_eq_quadrant (hw : 2 ≤ w) (theta : BitVec w) :
    angle theta = (quadrant theta).toNat * (π / 2) + 2 * π * ((low theta).toNat / 2 ^ w) := by
  have hpow : (2 : ℝ) ^ w = 4 * 2 ^ (w - 2) := by
    rw [show (4 : ℝ) = 2 ^ 2 by norm_num, ← pow_add, Nat.add_sub_cancel' hw]
  have hquadrant : (quadrant theta).toNat = theta.toNat / 2 ^ (w - 2) := by
    have hsame : quadrant theta = upper 2 theta := rfl
    rw [hsame, toNat_upper]
    refine Nat.mod_eq_of_lt (Nat.div_lt_of_lt_mul ?_)
    rw [← pow_add, Nat.sub_add_cancel hw]
    exact theta.isLt
  have hlow : (low theta).toNat = theta.toNat % 2 ^ (w - 2) := BitVec.toNat_setWidth _ _
  have hsum : (theta.toNat : ℝ)
      = 2 ^ (w - 2) * (quadrant theta).toNat + (low theta).toNat := by
    rw [hquadrant, hlow]
    exact_mod_cast (Nat.div_add_mod _ _).symm
  have hne : (2 : ℝ) ^ (w - 2) ≠ 0 := by positivity
  unfold angle
  rw [hsum, hpow]
  field_simp
  ring

theorem angle_quarterTurn (hw : 2 ≤ w) : angle (quarterTurn w) = π / 2 := by
  have hpow : (2 : ℝ) ^ w = 4 * 2 ^ (w - 2) := by
    rw [show (4 : ℝ) = 2 ^ 2 by norm_num, ← pow_add, Nat.add_sub_cancel' hw]
  have hne : (2 : ℝ) ^ (w - 2) ≠ 0 := by positivity
  have hlt : 2 ^ (w - 2) < 2 ^ w := Nat.pow_lt_pow_right (by omega) (by omega)
  rw [angle, quarterTurn, BitVec.toNat_ofNat, Nat.mod_eq_of_lt hlt, hpow]
  push_cast
  field_simp
  ring

/-- A quarter of a turn ahead the sine is the cosine. -/
theorem sin_angle_add_quarterTurn (hw : 2 ≤ w) (theta : BitVec w) (x : ℝ) :
    sin (angle (theta + quarterTurn w) + x) = cos (angle theta + x) := by
  rw [← Angle.sin_coe, Angle.coe_add, coe_angle_add, angle_quarterTurn hw, ← Angle.coe_add,
    ← Angle.coe_add, Angle.sin_coe, add_right_comm, sin_add_pi_div_two]

/-- The symmetries of the sine: an odd quadrant runs backwards, an upper one is negative. -/
theorem sin_quadrant (q : BitVec 2) (y : ℝ) :
    sin (q.toNat * (π / 2) + y)
      = (if q.getLsbD 1 then -1 else 1) * sin (if q.getLsbD 0 then π / 2 - y else y) := by
  rcases quadrant_cases q with rfl | rfl | rfl | rfl
  · simp
  · simp [sin_pi_div_two_sub, sin_add_pi_div_two, add_comm _ y]
  · have hhalf : ((0b10#2).toNat : ℝ) * (π / 2) + y = y + π := by simp; ring
    rw [hhalf, sin_add_pi]
    simp
  · have hhalf : ((0b11#2).toNat : ℝ) * (π / 2) + y = y + π / 2 + π := by simp; ring
    rw [hhalf, sin_add_pi, sin_add_pi_div_two]
    simp [sin_pi_div_two_sub]

/-! ## Samples of a wave -/

/-- The error of a sample at a nearby point of a wave of amplitude `A`. -/
theorem abs_sub_amplitude_le {A : ℝ} (hA : 0 ≤ A) (v x y : ℝ) :
    |v - A * y| ≤ |v - A * x| + A * |x - y| :=
  calc |v - A * y| ≤ |v - A * x| + |A * x - A * y| := abs_sub_le _ _ _
    _ = |v - A * x| + A * |x - y| := by rw [← mul_sub, abs_mul, abs_of_nonneg hA]

end Signal
