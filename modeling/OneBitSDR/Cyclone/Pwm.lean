import OneBitSDR.Clocked.Counter
import OneBitSDR.Cyclone.AmDemod

set_option autoImplicit false

/-! # `pwm.sv`: the audio output of the Cyclone receiver

A counter of `WIDTH` bits runs through its periods; the output is high while it is above
`compare_reg`. The last accepted sample, in offset binary, waits in `data_reg` and is copied to
`compare_reg` on the last edge of a period. The second half of the file is the wiring of `sdr.sv`
between the demodulator and this module.
-/

namespace OneBitSDR

open Clocked Signal

/-- The registers of `pwm`. -/
structure Pwm (WIDTH : ℕ) where
  counter : BitVec WIDTH
  data_reg : BitVec WIDTH
  compare_reg : BitVec WIDTH
  pwm_out : Bool

/-- The input ports of `pwm`. -/
structure PwmIn (WIDTH : ℕ) where
  clock_sreset : Bool
  data_valid : Bool
  data : BitVec WIDTH

namespace Pwm

variable {WIDTH : ℕ}

/-- One rising edge of `clock`. -/
def step (s : Pwm WIDTH) (u : PwmIn WIDTH) : Pwm WIDTH :=
  if u.clock_sreset then
    { counter := 0
      data_reg := 0
      compare_reg := 1 <<< (WIDTH - 1)
      pwm_out := false }
  else
    { counter := s.counter + 1
      data_reg :=
        if u.data_valid then 1 + u.data + (BitVec.allOnes (WIDTH - 1)).setWidth WIDTH
        else s.data_reg
      compare_reg := if s.counter = BitVec.allOnes WIDTH then s.data_reg else s.compare_reg
      pwm_out := decide (s.counter > s.compare_reg) }

/-- Offset binary, `data + 2^(WIDTH-1)` modulo `2^WIDTH`. -/
def offsetBinary (data : BitVec WIDTH) : ℕ := (data + BitVec.ofNat WIDTH (2 ^ (WIDTH - 1))).toNat

/-- One plus half a turn less one is half a turn. -/
theorem toNat_offset (data : BitVec WIDTH) :
    (1 + data + (BitVec.allOnes (WIDTH - 1)).setWidth WIDTH).toNat = offsetBinary data := by
  have hpos : 1 ≤ 2 ^ (WIDTH - 1) := Nat.one_le_two_pow
  have hone : (1 : BitVec WIDTH) + (BitVec.allOnes (WIDTH - 1)).setWidth WIDTH
      = BitVec.ofNat WIDTH (2 ^ (WIDTH - 1)) := by
    apply BitVec.eq_of_toNat_eq
    calc ((1 : BitVec WIDTH) + (BitVec.allOnes (WIDTH - 1)).setWidth WIDTH).toNat
        = (1 % 2 ^ WIDTH + (2 ^ (WIDTH - 1) - 1) % 2 ^ WIDTH) % 2 ^ WIDTH := by
          rw [BitVec.toNat_add, BitVec.toNat_setWidth, BitVec.toNat_allOnes]
          rfl
      _ = 2 ^ (WIDTH - 1) % 2 ^ WIDTH := by rw [← Nat.add_mod, Nat.add_sub_cancel' hpos]
      _ = (BitVec.ofNat WIDTH (2 ^ (WIDTH - 1))).toNat := (BitVec.toNat_ofNat _ _).symm
  calc (1 + data + (BitVec.allOnes (WIDTH - 1)).setWidth WIDTH).toNat
      = (data + (1 + (BitVec.allOnes (WIDTH - 1)).setWidth WIDTH)).toNat := by
        rw [BitVec.add_comm 1 data, BitVec.add_assoc]
    _ = offsetBinary data := by rw [hone, offsetBinary]

/-! One edge outside reset. -/

section Step

variable {s : Pwm WIDTH} {u : PwmIn WIDTH}

theorem step_counter (h : u.clock_sreset = false) : (s.step u).counter = s.counter + 1 := by
  simp [step, h]

theorem step_data_reg_valid (h : u.clock_sreset = false) (hv : u.data_valid = true) :
    (s.step u).data_reg.toNat = offsetBinary u.data := by
  simp only [step, h, hv, Bool.false_eq_true, if_false, if_true, toNat_offset]

theorem step_data_reg_hold (h : u.clock_sreset = false) (hv : u.data_valid = false) :
    (s.step u).data_reg = s.data_reg := by
  simp [step, h, hv]

theorem step_compare_reg_reload (h : u.clock_sreset = false)
    (hc : s.counter = BitVec.allOnes WIDTH) : (s.step u).compare_reg = s.data_reg := by
  simp [step, h, hc]

theorem step_compare_reg_hold (h : u.clock_sreset = false)
    (hc : s.counter ≠ BitVec.allOnes WIDTH) : (s.step u).compare_reg = s.compare_reg := by
  simp [step, h, hc]

theorem step_pwm_out (h : u.clock_sreset = false) :
    (s.step u).pwm_out = decide (s.compare_reg.toNat < s.counter.toNat) := by
  simp only [step, h, Bool.false_eq_true, if_false, gt_iff_lt, BitVec.lt_def]

end Step

/-! ## A period -/

section Period

variable {s : Pwm WIDTH} {u : ℕ → PwmIn WIDTH} (hr : ∀ n, (u n).clock_sreset = false)

include hr

/-- Edge `t` is the first of a period: the counter counts the edges of the period. -/
theorem toNat_counter {t k : ℕ} (h0 : (run step s u t).counter = 0) (hk : k < 2 ^ WIDTH) :
    (run step s u (t + k)).counter.toNat = k := by
  rw [run_add]
  exact toNat_freeRunning Pwm.counter h0 hk (fun j _ => step_counter (hr (t + j)))

/-- The sample accepted last is the one that waits. -/
theorem data_reg_last {j m : ℕ} (hjm : j < m) (hv : (u j).data_valid = true)
    (hlast : ∀ i, j < i → i < m → (u i).data_valid = false) :
    (run step s u m).data_reg.toNat = offsetBinary (u j).data := by
  have hhold : (run step s u m).data_reg = (run step s u (j + 1)).data_reg := by
    refine run_hold (fun t : Pwm WIDTH => t.data_reg) hjm ?_
    intro k hjk hkm
    exact step_data_reg_hold (hr k) (hlast k (by omega) hkm)
  rw [hhold, run_succ, step_data_reg_valid (hr j) hv]

/-- Through a period the compared value is what waited before the last edge of the previous one. -/
theorem compare_reg_period {m k : ℕ} (h0 : (run step s u (m + 1)).counter = 0)
    (hk : k < 2 ^ WIDTH) :
    (run step s u (m + 1 + k)).compare_reg = (run step s u m).data_reg := by
  have hfull : (run step s u m).counter = BitVec.allOnes WIDTH := by
    rw [run_succ, step_counter (hr m)] at h0
    rw [← BitVec.neg_one_eq_allOnes]
    exact eq_neg_of_add_eq_zero_left h0
  have hhold : (run step s u (m + 1 + k)).compare_reg = (run step s u (m + 1)).compare_reg := by
    refine run_hold (fun t : Pwm WIDTH => t.compare_reg) (Nat.le_add_right _ _) ?_
    intro i hi hik
    obtain ⟨d, rfl⟩ := Nat.exists_eq_add_of_le hi
    refine step_compare_reg_hold (hr _) ?_
    intro hones
    have hcount := toNat_counter hr h0 (k := d) (by omega)
    rw [hones, BitVec.toNat_allOnes] at hcount
    omega
  rw [hhold, run_succ, step_compare_reg_reload (hr m) hfull]

/-- **A period.** Count `k` sets the output exactly if it is above the compared value. -/
theorem pwm_out_period {j t : ℕ} (h0 : (run step s u t).counter = 0) (hjt : j + 1 < t)
    (hv : (u j).data_valid = true) (hlast : ∀ i, j < i → i + 1 < t → (u i).data_valid = false)
    {k : ℕ} (hk : k < 2 ^ WIDTH) :
    (run step s u (t + k + 1)).pwm_out = decide (offsetBinary (u j).data < k) := by
  obtain ⟨m, rfl⟩ := Nat.exists_eq_add_of_le' (show 1 ≤ t by omega)
  rw [run_succ, step_pwm_out (hr _), toNat_counter hr h0 hk, compare_reg_period hr h0 hk,
    data_reg_last hr (show j < m by omega) hv (fun i h1 h2 => hlast i h1 (by omega))]

/-- The number of counts of a period that set the output. -/
theorem high_counts {j t : ℕ} (h0 : (run step s u t).counter = 0) (hjt : j + 1 < t)
    (hv : (u j).data_valid = true) (hlast : ∀ i, j < i → i + 1 < t → (u i).data_valid = false) :
    Nat.count (fun k => (run step s u (t + k + 1)).pwm_out = true) (2 ^ WIDTH)
      = 2 ^ WIDTH - 1 - offsetBinary (u j).data := by
  have hlt : offsetBinary (u j).data < 2 ^ WIDTH := BitVec.isLt _
  apply count_of_iff_lt hlt
  intro k hk
  rw [pwm_out_period hr h0 hjt hv hlast hk, decide_eq_true_eq]

end Period

/-! ## The wiring of `sdr` -/

section Wiring

variable {lpm_mult : LpmMult 16} {altsqrt : AltSqrt 16}

/-- The port `data` of `pwm` in `sdr`: the upper byte of `demodulated_out` less 128, a 32-bit
difference of which the port takes eight bits. -/
def sdrData (demodulated_out : BitVec 16) : BitVec 8 :=
  ((demodulated_out.extractLsb' 8 8).setWidth 32 - (1 : BitVec 32) <<< (8 - 1)).setWidth 8

/-- The ports of `pwm` in `sdr`, outside reset. -/
def sdrPorts (demod : AmDemod lpm_mult altsqrt) : PwmIn 8 where
  clock_sreset := false
  data_valid := demod.demod_valid
  data := sdrData demod.demod

/-- The offset is taken off and put back. -/
theorem offsetBinary_sdrData (demodulated_out : BitVec 16) :
    offsetBinary (sdrData demodulated_out) = (demodulated_out.extractLsb' 8 8).toNat := by
  have h : ∀ x : BitVec 8, (x.setWidth 32 - (1 : BitVec 32) <<< (8 - 1)).setWidth 8
      + BitVec.ofNat 8 (2 ^ (8 - 1)) = x := by decide
  rw [offsetBinary, sdrData, h]

/-- The counts of a period that are high for the magnitude of `i` and `q`. -/
def duty (i q : BitVec 16) : ℕ :=
  2 ^ 8 - 1 - offsetBinary (sdrData (BitVec.ofNat 16 (AmDemod.magnitude i q)))

/-- The upper byte of the magnitude counts down from 255. -/
theorem duty_eq (i q : BitVec 16) : duty i q = 255 - AmDemod.magnitude i q / 256 := by
  have hlt := AmDemod.magnitude_lt i q
  have hbyte : offsetBinary (sdrData (BitVec.ofNat 16 (AmDemod.magnitude i q)))
      = AmDemod.magnitude i q / 256 := by
    calc offsetBinary (sdrData (BitVec.ofNat 16 (AmDemod.magnitude i q)))
        = ((BitVec.ofNat 16 (AmDemod.magnitude i q)).extractLsb' 8 8).toNat :=
          offsetBinary_sdrData _
      _ = AmDemod.magnitude i q / 2 ^ 8 % 2 ^ 8 := by
          rw [BitVec.extractLsb'_toNat, BitVec.toNat_ofNat, Nat.mod_eq_of_lt hlt,
            Nat.shiftRight_eq_div_pow]
      _ = AmDemod.magnitude i q / 256 := Nat.mod_eq_of_lt (Nat.div_lt_of_lt_mul hlt)
  rw [duty, hbyte]
  rfl

/-- The largest magnitude is that of two samples of full scale. -/
theorem magnitude_le (i q : BitVec 16) : AmDemod.magnitude i q ≤ 46340 := by
  have hi := AmDemod.four_mul_sq_le i
  have hq := AmDemod.four_mul_sq_le q
  rw [AmDemod.magnitude, ← Nat.lt_succ_iff, Nat.sqrt_lt', AmDemod.power,
    show Nat.succ 46340 ^ 2 = 2147488281 from rfl]
  omega

/-- The magnitude of the inputs of eleven clocks before the accepting edge sets the duty. -/
theorem high_counts_magnitude (hmult : lpm_mult.HasLatency 2 (signedProduct 16))
    (hsqrt : altsqrt.HasLatency 8 (floorSqrt 16)) (d : AmDemod lpm_mult altsqrt)
    (v : ℕ → AmDemodIn 16) (hv : ∀ n, (v n).clock_sreset = false) (p : Pwm 8) {n t : ℕ}
    (h0 : (run step p (fun k => sdrPorts (run AmDemod.step d v k)) t).counter = 0)
    (hnt : n + 12 < t) (hvalid : (run AmDemod.step d v (n + 11)).demod_valid = true)
    (hlast : ∀ i, n + 11 < i → i + 1 < t → (run AmDemod.step d v i).demod_valid = false) :
    Nat.count (fun k => (run step p (fun k => sdrPorts (run AmDemod.step d v k))
      (t + k + 1)).pwm_out = true) (2 ^ 8) = duty (v n).i_in (v n).q_in := by
  have hdemod : (run AmDemod.step d v (n + 11)).demod
      = BitVec.ofNat 16 (AmDemod.magnitude (v n).i_in (v n).q_in) := by
    rw [← AmDemod.demod_latency hmult hsqrt n (hv (n + 2)), BitVec.ofNat_toNat,
      BitVec.setWidth_eq]
  rw [high_counts (fun _ => rfl) h0 hnt hvalid hlast, duty, ← hdemod]
  rfl

/-- **The duty law.** In every period after a sample has been accepted the output is low for the
first `D + 1` counts and high for the rest, where `D` is the sample accepted last before the
last edge of the previous period, in offset binary. In `sdr` the offset binary value is the
upper byte of `demodulated_out`, so the duty falls as the magnitude grows, over all its range. -/
theorem pwm_duty_law :
    (∀ (WIDTH : ℕ) (s : Pwm WIDTH) (u : ℕ → PwmIn WIDTH) (j t : ℕ), 2 ≤ WIDTH →
      (∀ n, (u n).clock_sreset = false) → (run step s u t).counter = 0 → j + 1 < t →
      (u j).data_valid = true → (∀ i, j < i → i + 1 < t → (u i).data_valid = false) →
      (∀ k < 2 ^ WIDTH,
        (run step s u (t + k + 1)).pwm_out = decide (offsetBinary (u j).data < k)) ∧
      Nat.count (fun k => (run step s u (t + k + 1)).pwm_out = true) (2 ^ WIDTH)
        = 2 ^ WIDTH - 1 - offsetBinary (u j).data) ∧
    (∀ demodulated_out : BitVec 16,
      offsetBinary (sdrData demodulated_out) = (demodulated_out.extractLsb' 8 8).toNat) ∧
    (∀ (lpm_mult : LpmMult 16) (altsqrt : AltSqrt 16) (d : AmDemod lpm_mult altsqrt)
      (v : ℕ → AmDemodIn 16) (p : Pwm 8) (n t : ℕ),
      lpm_mult.HasLatency 2 (signedProduct 16) → altsqrt.HasLatency 8 (floorSqrt 16) →
      (∀ n, (v n).clock_sreset = false) →
      (run step p (fun k => sdrPorts (run AmDemod.step d v k)) t).counter = 0 → n + 12 < t →
      (run AmDemod.step d v (n + 11)).demod_valid = true →
      (∀ i, n + 11 < i → i + 1 < t → (run AmDemod.step d v i).demod_valid = false) →
      Nat.count (fun k => (run step p (fun k => sdrPorts (run AmDemod.step d v k))
        (t + k + 1)).pwm_out = true) (2 ^ 8) = duty (v n).i_in (v n).q_in) ∧
    (∀ i q : BitVec 16, duty i q = 255 - AmDemod.magnitude i q / 256 ∧
      AmDemod.magnitude i q ≤ 46340) ∧
    (∀ i q i' q' : BitVec 16, AmDemod.magnitude i q ≤ AmDemod.magnitude i' q' →
      duty i' q' ≤ duty i q) := by
  refine ⟨?_, offsetBinary_sdrData, ?_, ?_, ?_⟩
  · intro WIDTH s u j t _ hr h0 hjt hv hlast
    exact ⟨fun k hk => pwm_out_period hr h0 hjt hv hlast hk, high_counts hr h0 hjt hv hlast⟩
  · intro lpm_mult altsqrt d v p n t hmult hsqrt hv h0 hnt hvalid hlast
    exact high_counts_magnitude hmult hsqrt d v hv p h0 hnt hvalid hlast
  · intro i q
    exact ⟨duty_eq i q, magnitude_le i q⟩
  · intro i q i' q' h
    have hdiv := Nat.div_le_div_right (c := 256) h
    rw [duty_eq, duty_eq]
    omega

end Wiring

/-! ### Two periods -/

/-- A 2-bit counter, `-1` accepted on edge 1: offset binary 1, two counts high. In `sdr` the
constant input `3 + 4 i` has magnitude 5: 255 counts high. -/
theorem pwm_duty_law_two_periods :
    Nat.count (fun k => (run step (⟨0, 0, 2, false⟩ : Pwm 2) (fun n => ⟨false, n == 1, 3⟩)
      (4 + k + 1)).pwm_out = true) (2 ^ 2) = 2 ∧
    Nat.count (fun k => (run step (⟨236, 0, 128, false⟩ : Pwm 8)
      (fun k => sdrPorts (run AmDemod.step AmDemod.cleared (fun _ => AmDemod.glimpse 1) k))
      (20 + k + 1)).pwm_out = true) (2 ^ 8) = 255 := by
  constructor
  · exact (pwm_duty_law.1 2 ⟨0, 0, 2, false⟩ (fun n => ⟨false, n == 1, 3⟩) 1 4 (le_refl 2)
      (fun _ => rfl) (by decide) (by omega) rfl (fun i h1 h2 => by
        obtain rfl : i = 2 := by omega
        rfl)).2
  · have hfive : AmDemod.magnitude (3 : BitVec 16) 4 = 5 := by
      rw [AmDemod.magnitude, show AmDemod.power (3 : BitVec 16) 4 = 5 * 5 from rfl, Nat.sqrt_eq]
    have h := pwm_duty_law.2.2.1 _ _ AmDemod.cleared (fun _ => AmDemod.glimpse 1)
      ⟨236, 0, 128, false⟩ 7 20 (pipeline_hasLatency 1 _) (pipeline_hasLatency 7 _) (fun _ => rfl)
      (by decide) (by omega) (by decide) (fun i h1 h2 => by omega)
    rw [h, duty_eq]
    show 255 - AmDemod.magnitude (3 : BitVec 16) 4 / 256 = 255
    rw [hfive]

end Pwm

end OneBitSDR
