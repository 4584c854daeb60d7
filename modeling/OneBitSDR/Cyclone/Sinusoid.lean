import OneBitSDR.LocalOscillators
import OneBitSDR.Signal.Angle
import OneBitSDR.Signal.Rotation

set_option autoImplicit false

/-! # The local oscillator of the Cyclone receiver is a sinusoid

Entry `k` of `quarter_wave_512.hex` is `32767 * sin (2π (k + 1/2) / 2048)` rounded down: the samples
lie in the middle of the steps of the angle, so the quarter read backwards fits the one read
forwards. What `nco` puts out is then the sine and the cosine of the accumulated phase, up to the
rounding and up to half a step of the angle.
-/

namespace OneBitSDR

open Clocked Signal Real

/-! ## The table -/

theorem quarter_wave_512_agrees :
    agrees (2 ^ 64) fineTurn 2 (fun v y => within (2 ^ 64) 32767 400000000000000 v (v + 1) y)
      (fineOrbit 1) quarter_wave_512 = true := by
  decide +kernel

/-- The table holds the sine in the middle of each step, rounded down. -/
theorem quarterWave_bounds (address : BitVec 9) :
    ((quarterWave address).toNat : ℝ) ≤ 32767 * sin ((2 * address.toNat + 1) * (π / 2048)) ∧
      32767 * sin ((2 * address.toNat + 1) * (π / 2048)) < (quarterWave address).toNat + 1 := by
  have hlength : quarter_wave_512.length = 512 := by decide +kernel
  have hlen : address.toNat < quarter_wave_512.length := hlength ▸ address.isLt
  have hentry : (quarterWave address).toNat = quarter_wave_512[address.toNat] := by
    have hle := quarter_wave_512_le _ (List.getElem_mem hlen)
    rw [quarterWave, BitVec.toNat_ofNat, List.getD_eq_getElem?_getD, List.getElem?_eq_getElem hlen]
    exact Nat.mod_eq_of_lt (by simp only [Option.getD_some]; omega)
  have h := sin_of_agrees quarter_wave_512_agrees (by norm_num) hlen
    (by have := address.isLt; omega)
  rw [hentry]
  push_cast at h
  exact h

/-! ## The wave -/

/-- An integer is a real number rounded towards zero. -/
structure Truncates (v : ℤ) (x : ℝ) : Prop where
  le : |(v : ℝ)| ≤ |x|
  lt : |x| < |(v : ℝ)| + 1
  sign : 0 ≤ v * x

theorem Truncates.neg {v : ℤ} {x : ℝ} (h : Truncates v x) : Truncates (-v) (-x) where
  le := by
    push_cast
    rw [abs_neg, abs_neg]
    exact h.le
  lt := by
    push_cast
    rw [abs_neg, abs_neg]
    exact h.lt
  sign := by
    push_cast
    rw [neg_mul_neg]
    exact h.sign

/-- Rounding down a number that is not negative. -/
theorem truncates_of_floor {m : ℕ} {x : ℝ} (hle : m ≤ x) (hlt : x < m + 1) :
    Truncates m x := by
  have hm : (0 : ℝ) ≤ m := Nat.cast_nonneg m
  have hx : 0 ≤ x := hm.trans hle
  refine ⟨?_, ?_, ?_⟩
  · simpa [abs_of_nonneg hx] using hle
  · simpa [abs_of_nonneg hx] using hlt
  · simpa using mul_nonneg hm hx

theorem Truncates.abs_sub_lt {v : ℤ} {x : ℝ} (h : Truncates v x) : |v - x| < 1 := by
  have hle := h.le
  have hlt := h.lt
  rw [abs_lt]
  rcases mul_nonneg_iff.mp h.sign with ⟨hv, hx⟩ | ⟨hv, hx⟩
  · rw [abs_of_nonneg hv, abs_of_nonneg hx] at hle hlt
    constructor <;> linarith
  · rw [abs_of_nonpos hv, abs_of_nonpos hx] at hle hlt
    constructor <;> linarith

/-- The error of a rounded sample at a nearby angle. -/
theorem near_sinusoid {v : ℤ} {x y d : ℝ} (h : Truncates v (32767 * x)) (hxy : |x - y| ≤ d) :
    |v - 32767 * y| < 1 + 32767 * d := by
  have hround := h.abs_sub_lt
  have hsub := abs_sub_amplitude_le (by norm_num : (0 : ℝ) ≤ 32767) v x y
  linarith

/-- A table entry that is negated or not, as a number. -/
theorem toInt_ite_neg (neg : Bool) (address : BitVec 9) :
    (if neg then -quarterWave address else quarterWave address).toInt
      = if neg then -((quarterWave address).toNat : ℤ) else (quarterWave address).toNat := by
  have h := quarterWave_toNat_le address
  cases neg with
  | false =>
      simp only [Bool.false_eq_true, if_false]
      exact BitVec.toInt_eq_toNat_of_lt (by omega)
  | true =>
      simp only [if_true]
      rw [BitVec.toInt_eq_toNat_cond, BitVec.toNat_neg]
      split <;> omega

namespace SineCosine

/-- The address of the sine as a number. -/
theorem toNat_sineAddress (theta : BitVec 11) :
    (sineAddress theta).toNat
      = if (quadrant theta).getLsbD 0 then 511 - (low theta).toNat else (low theta).toNat := by
  unfold sineAddress
  cases (quadrant theta).getLsbD 0 with
  | false => simp [BitVec.fill]
  | true =>
      have hones : BitVec.fill (11 - 2) true = BitVec.allOnes (11 - 2) := by decide
      rw [hones, BitVec.allOnes_xor, BitVec.toNat_not, if_pos rfl]

/-- The wave that the table stands for is a sinusoid, half a step ahead of the angle. -/
theorem lookup_truncates (theta : BitVec 11) :
    Truncates (lookup quarterWave theta).toInt (32767 * sin (angle theta + π / 2048)) := by
  obtain ⟨hle, hlt⟩ := quarterWave_bounds (sineAddress theta)
  -- the angle within the quadrant, counted from the side on which the table begins
  have hbase : (if (quadrant theta).getLsbD 0
      then π / 2 - (2 * (low theta).toNat + 1) * (π / 2048)
      else (2 * (low theta).toNat + 1) * (π / 2048))
      = (2 * (sineAddress theta).toNat + 1) * (π / 2048) := by
    have hlow : (low theta).toNat ≤ 511 := Nat.le_of_lt_succ (low theta).isLt
    rw [toNat_sineAddress]
    split_ifs with hodd
    · rw [Nat.cast_sub hlow]
      push_cast
      ring
    · rfl
  have hangle : angle theta + π / 2048
      = (quadrant theta).toNat * (π / 2) + (2 * (low theta).toNat + 1) * (π / 2048) := by
    rw [angle_eq_quadrant (by decide)]
    ring
  have hfloor := truncates_of_floor hle hlt
  rw [hangle, sin_quadrant, hbase, lookup_eq, toInt_ite_neg]
  cases (quadrant theta).getLsbD 1 with
  | false => simpa using hfloor
  | true => simpa using hfloor.neg

/-- A quarter of a turn ahead it is the cosine. -/
theorem lookup_quarterTurn_truncates (theta : BitVec 11) :
    Truncates (lookup quarterWave (theta + quarterTurn 11)).toInt
      (32767 * cos (angle theta + π / 2048)) := by
  have h := lookup_truncates (theta + quarterTurn 11)
  rw [sin_angle_add_quarterTurn (by decide)] at h
  exact h

end SineCosine

namespace Nco

section Outputs

variable (s : Nco 32 16 11) {u : ℕ → Ports 32} {n : ℕ}
  (hu : ∀ j < 4, (u (n + j)).clock_sreset = false)

include hu

/-- Four clocks late the outputs belong to the middle of the step in which the phase lies. -/
theorem run_truncates :
    let step := angle (upper 11 (run (clocked quarterWave) s u n).phase_accumulator) + π / 2048
    let t := run (clocked quarterWave) s u (n + 4)
    Truncates (t.sine_out 16).toInt (32767 * sin step) ∧
      Truncates (t.cosine_out 16).toInt (32767 * cos step) := by
  intro step t
  obtain ⟨hsine, hcosine⟩ := run_lut (by omega) quarterWave s u n hu
  constructor
  · rw [sine_out_full, hsine]
    exact SineCosine.lookup_truncates _
  · rw [cosine_out_full, hcosine]
    exact SineCosine.lookup_quarterTurn_truncates _

/-- The phase itself is half a step away at most. -/
theorem run_near_phase {x : ℝ}
    (hphase : (angle (run (clocked quarterWave) s u n).phase_accumulator : Real.Angle) = x) :
    let t := run (clocked quarterWave) s u (n + 4)
    |(t.sine_out 16).toInt - 32767 * sin x| < 1 + 32767 * (π / 2048) ∧
      |(t.cosine_out 16).toInt - 32767 * cos x| < 1 + 32767 * (π / 2048) := by
  obtain ⟨hs, hc⟩ := run_truncates s hu
  have hstep : |angle (upper 11 (run (clocked quarterWave) s u n).phase_accumulator) + π / 2048
      - angle (run (clocked quarterWave) s u n).phase_accumulator| ≤ π / 2048 := by
    have hmiddle := abs_middle_sub_le (t := 11) (by decide)
      (run (clocked quarterWave) s u n).phase_accumulator
    norm_num at hmiddle
    exact hmiddle
  constructor
  · have hsin := (abs_sin_sub_sin_le _ _).trans hstep
    rw [← Angle.sin_coe (angle _), hphase, Angle.sin_coe] at hsin
    exact near_sinusoid hs hsin
  · have hcos := (abs_cos_sub_cos_le _ _).trans hstep
    rw [← Angle.cos_coe (angle _), hphase, Angle.cos_coe] at hcos
    exact near_sinusoid hc hcos

end Outputs

/-- **The local oscillator.** Outside reset and for every sequence of increments: four clocks late,
the outputs are the sine and the cosine, with the amplitude 32767, in the middle of the step of the
angle in which the accumulated phase lies, rounded towards zero. So they are those of the phase
itself up to the rounding and half a step. -/
theorem local_oscillator_sine (s : Nco 32 16 11) (u : ℕ → Ports 32)
    (hu : ∀ k, (u k).clock_sreset = false) (n : ℕ) :
    let phase := angle s.phase_accumulator + ∑ k ∈ Finset.range n, angle (u k).phase_increment
    let step := angle (upper 11 (run (clocked quarterWave) s u n).phase_accumulator) + π / 2048
    let t := run (clocked quarterWave) s u (n + 4)
    Truncates (t.sine_out 16).toInt (32767 * sin step) ∧
      Truncates (t.cosine_out 16).toInt (32767 * cos step) ∧
      |(t.sine_out 16).toInt - 32767 * sin phase| < 1 + 32767 * (π / 2048) ∧
      |(t.cosine_out 16).toInt - 32767 * cos phase| < 1 + 32767 * (π / 2048) := by
  intro phase step t
  have hphase : (angle (run (clocked quarterWave) s u n).phase_accumulator : Real.Angle)
      = (phase : ℝ) := by
    rw [run_phase_accumulator quarterWave s u n (fun k _ => hu k)]
    exact coe_angle_sum _ _ n
  obtain ⟨hs, hc⟩ := run_truncates s (n := n) (fun j _ => hu (n + j))
  exact ⟨hs, hc, run_near_phase s (fun j _ => hu (n + j)) hphase⟩

/-- An eighth of a turn per clock: the peak after two clocks. -/
theorem local_oscillator_sine_eighth :
    |((run (clocked quarterWave) (atPhase 0) (fun _ => ⟨false, 0x20000000⟩) (2 + 4)).sine_out
        16).toInt - 32767 * sin (π / 2)| < 1 + 32767 * (π / 2048) := by
  have h := (local_oscillator_sine (atPhase 0) (fun _ => ⟨false, 0x20000000⟩) (fun _ => rfl)
    2).2.2.1
  have hphase : angle (atPhase 0).phase_accumulator
      + ∑ k ∈ Finset.range 2, angle (0x20000000 : BitVec 32) = π / 2 := by
    have hzero : angle (atPhase 0).phase_accumulator = 0 := by simp [angle, atPhase]
    have heighth : angle (0x20000000 : BitVec 32) = π / 4 := by
      rw [angle, show (0x20000000 : BitVec 32).toNat = 2 ^ 29 from rfl]
      norm_num
      ring
    rw [hzero, Finset.sum_const, Finset.card_range, heighth]
    norm_num
    ring
  rw [← hphase]
  exact h

end Nco

end OneBitSDR
