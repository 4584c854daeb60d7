import OneBitSDR.Cyclone.Receiver
import OneBitSDR.LocalOscillators

set_option autoImplicit false

/-! # An unmodulated carrier

A CIC filter has its zeros at the multiples of the rate it decimates to, so of an input that repeats
itself after one decimation step nothing gets through but the mean. In the receiver of `sdr.sv` the
products of the mixer repeat themselves if the input does and the tuning is on the grid of the
decimated rate. Then all samples are the same, in spite of the rounding in the table and of the
floors of the gain and the root, and the audio output is silent: its duty does not change any more.
-/

namespace OneBitSDR

open Clocked Signal

namespace SdrFpga

variable {lpm_mult : LpmMult 16} {altsqrt : AltSqrt 16}

/-- From edge `N` on the input has the period 4096, and the increment, a multiple of the 4096th part
of a turn, and the gain are constant. -/
structure Steady (u : ℕ → Ports) (N : ℕ) (phase_increment : BitVec 32) (cic_gain : BitVec 4) :
    Prop where
  lvds_in : ∀ n, N ≤ n → (u (n + 4096)).lvds_in = (u n).lvds_in
  tuned : ∀ n, N ≤ n → (u n).phase_increment = phase_increment
  gain : ∀ n, N ≤ n → (u n).cic_gain = cic_gain
  grid : 2 ^ 20 ∣ phase_increment.toNat

/-- The sample for products with the sum `total` over a decimation step: their mean, scaled by the
gain. -/
def steadySample (cic_gain : BitVec 4) (total : ℤ) : BitVec 16 :=
  BitVec.ofInt 16 (2 ^ cic_gain.toNat * total / 4096)

/-- A filter that reads periodic products three clocks late. -/
theorem cicSample_periodic {x : ℕ → ℤ} {N p : ℕ} (h : ∀ m, N ≤ m → x (m + 4096) = x m)
    (hp : N + 20485 ≤ (p - 5) * 4096) (cic_gain : BitVec 4) :
    AmReceiver.cicSample (fun m => x (m - 3)) cic_gain p
      = steadySample cic_gain (∑ i ∈ Finset.range 4096, x (N + i)) := by
  have hgain := cic_gain.isLt
  have hperiod : ∀ m, N + 3 ≤ m → x (m + 4096 - 3) = x (m - 3) := fun m hm => by
    rw [show m + 4096 - 3 = m - 3 + 4096 by omega]
    exact h (m - 3) (by omega)
  have hscale : ∀ total : ℤ, 4096 ^ 4 * total / 2 ^ (60 - cic_gain.toNat)
      = 2 ^ cic_gain.toNat * total / 4096 := by
    intro total
    have hpow : (2 : ℤ) ^ cic_gain.toNat * 2 ^ (60 - cic_gain.toNat) = 2 ^ 48 * 4096 := by
      rw [← pow_add, Nat.add_sub_cancel' (by omega)]
      norm_num
    calc 4096 ^ 4 * total / 2 ^ (60 - cic_gain.toNat)
        = 2 ^ cic_gain.toNat * (4096 ^ 4 * total)
            / (2 ^ cic_gain.toNat * 2 ^ (60 - cic_gain.toNat)) :=
          (Int.mul_ediv_mul_of_pos _ _ (by positivity)).symm
      _ = 2 ^ 48 * (2 ^ cic_gain.toNat * total) / (2 ^ 48 * 4096) := by
          rw [hpow]
          congr 1
          ring
      _ = 2 ^ cic_gain.toNat * total / 4096 := Int.mul_ediv_mul_of_pos _ _ (by norm_num)
  rw [AmReceiver.cicSample, windowResponse_periodic (by omega) hperiod (by omega), steadySample,
    Nat.cast_ofNat, hscale]
  simp only [Nat.add_right_comm N 3, Nat.add_sub_cancel]

/-! ## The products -/

/-- The ports of the oscillator. -/
def ncoPorts (s : SdrFpga lpm_mult altsqrt) (u : ℕ → Ports) (n : ℕ) : Nco.Ports 32 where
  clock_sreset := (run step s u n).am_receiver.clock_sreset_reg
  phase_increment := (u n).phase_increment

theorem run_nco (s : SdrFpga lpm_mult altsqrt) (u : ℕ → Ports) (n : ℕ) :
    (run step s u n).am_receiver.nco
      = run (Nco.clocked quarterWave) s.am_receiver.nco (ncoPorts s u) n :=
  run_proj (fun t : SdrFpga lpm_mult altsqrt => t.am_receiver.nco)
    (fun t (i : Ports) => (⟨t.am_receiver.clock_sreset_reg, i.phase_increment⟩ : Nco.Ports 32))
    (fun _ _ => rfl) s u n

section Steady

variable {s : SdrFpga lpm_mult altsqrt} {u : ℕ → Ports}
  (hu : ∀ n, (u n).system_clock_sreset = false) {N : ℕ} {phase_increment : BitVec 32}
  {cic_gain : BitVec 4} (h : Steady u N phase_increment cic_gain)

include hu in
/-- The registered reset goes one edge later. -/
theorem ncoPorts_released {n : ℕ} (hn : 1 ≤ n) : (ncoPorts s u n).clock_sreset = false := by
  obtain ⟨m, rfl⟩ := Nat.exists_eq_add_of_le' hn
  exact hu m

include h in
/-- On the grid a decimation step is a whole number of turns. -/
theorem whole_turns : 4096 • phase_increment = 0 := by
  obtain ⟨c, hc⟩ := h.grid
  apply BitVec.eq_of_toNat_eq
  rw [nsmul_eq_mul, BitVec.toNat_mul, hc]
  show 4096 * (2 ^ 20 * c) % 2 ^ 32 = 0
  omega

include hu h in
theorem phase_periodic {n : ℕ} (hn : N + 1 ≤ n) :
    (run step s u (n + 4096)).am_receiver.nco.phase_accumulator
      = (run step s u n).am_receiver.nco.phase_accumulator := by
  have hsum : ∑ k ∈ Finset.range 4096, (ncoPorts s u (n + k)).phase_increment
      = 4096 • phase_increment := by
    rw [← Finset.card_range 4096, ← Finset.sum_const]
    refine Finset.sum_congr (by rw [Finset.card_range]) fun k _ => ?_
    exact h.tuned (n + k) (by omega)
  have hstep := Nco.run_phase_accumulator quarterWave (run step s u n).am_receiver.nco
    (fun k => ncoPorts s u (n + k)) 4096 (fun k _ => ncoPorts_released hu (by omega))
  rw [hsum, whole_turns h, add_zero, run_nco s u n, ← run_add, ← run_nco, ← run_nco] at hstep
  exact hstep

include hu h in
/-- The outputs of the oscillator repeat themselves. -/
theorem oscillator_periodic {n : ℕ} (hn : N + 1 ≤ n) :
    (run step s u (n + 4096 + 4)).am_receiver.nco.sine_out 16
        = (run step s u (n + 4)).am_receiver.nco.sine_out 16 ∧
      (run step s u (n + 4096 + 4)).am_receiver.nco.cosine_out 16
        = (run step s u (n + 4)).am_receiver.nco.cosine_out 16 := by
  have hphase := phase_periodic (s := s) hu h hn
  rw [run_nco, run_nco] at hphase
  obtain ⟨hsine, hcosine⟩ := Nco.run_lut (by omega) quarterWave s.am_receiver.nco (ncoPorts s u) n
    (fun j _ => ncoPorts_released hu (by omega))
  obtain ⟨hsine', hcosine'⟩ := Nco.run_lut (by omega) quarterWave s.am_receiver.nco
    (ncoPorts s u) (n + 4096) (fun j _ => ncoPorts_released hu (by omega))
  rw [run_nco, run_nco, Nco.sine_out_full, Nco.sine_out_full, Nco.cosine_out_full,
    Nco.cosine_out_full, hsine, hsine', hcosine, hcosine', hphase]
  exact ⟨rfl, rfl⟩

include hu h in
theorem products_periodic {n : ℕ} (hn : N + 1 ≤ n) :
    iProduct s u (n + 4096) = iProduct s u n ∧ qProduct s u (n + 4096) = qProduct s u n := by
  obtain ⟨hsine, hcosine⟩ := oscillator_periodic (s := s) hu h hn
  rw [iProduct, iProduct, qProduct, qProduct, h.lvds_in n (by omega), hsine, hcosine]
  exact ⟨rfl, rfl⟩

include hu h in
/-- From a few steps later on the samples are the means of the products. -/
theorem samples_steady {p : ℕ} (hp : N ≤ 4096 * (p - 11)) (hp' : 11 ≤ p) :
    iSample s u p
        = steadySample cic_gain (∑ i ∈ Finset.range 4096, iProduct s u (N + 1 + i)) ∧
      qSample s u p
        = steadySample cic_gain (∑ i ∈ Finset.range 4096, qProduct s u (N + 1 + i)) := by
  rw [iSample, qSample, h.gain (4096 * p) (by omega)]
  exact ⟨cicSample_periodic (fun m hm => (products_periodic hu h hm).1) (by omega) cic_gain,
    cicSample_periodic (fun m hm => (products_periodic hu h hm).2) (by omega) cic_gain⟩

end Steady

/-- **Silence.** With an input of the period of a decimation step and a tuning on the grid from edge
`4096 q` on, the duty of the audio output is the same in all periods after number `16 (q + 11)`. It
is that of the means of the products over one step. -/
theorem carrier_is_silent (hmult : lpm_mult.HasLatency 2 (signedProduct 16))
    (hsqrt : altsqrt.HasLatency 8 (floorSqrt 16)) (s : SdrFpga lpm_mult altsqrt) {r : Ports}
    (hr : r.system_clock_sreset = true) (u : ℕ → Ports)
    (hu : ∀ n, (u n).system_clock_sreset = false) {q : ℕ} {phase_increment : BitVec 32}
    {cic_gain : BitVec 4} (h : Steady u (4096 * q) phase_increment cic_gain) {k : ℕ}
    (hk : 16 * (q + 11) < k) :
    let I := ∑ i ∈ Finset.range 4096, iProduct (s.step r) u (4096 * q + 1 + i)
    let Q := ∑ i ∈ Finset.range 4096, qProduct (s.step r) u (4096 * q + 1 + i)
    Nat.count (fun j => (run step (s.step r) u (256 * k + j + 1)).audio = true) 256
      = 255 - AmDemod.magnitude (steadySample cic_gain I) (steadySample cic_gain Q) / 256 := by
  intro I Q
  obtain ⟨p, hp⟩ : ∃ p, p = (k - 1) / 16 := ⟨_, rfl⟩
  obtain ⟨hI, hQ⟩ := samples_steady (s := s.step r) hu h (p := p) (by omega) (by omega)
  rw [count_audio (inReset_step s hr) hu hmult hsqrt (p := p) (by omega) (by omega) (by omega), hI,
    hQ]

/-- The square wave has 64 periods in a decimation step, and the tuning is 32 times the grid. -/
theorem squareWave_steady : Steady (squareWave false) (4096 * 0) 0x02000000 4 where
  lvds_in := by
    intro n _
    show decide ((n + 4096) % 64 < 32) = decide (n % 64 < 32)
    rw [decide_eq_decide]
    omega
  tuned _ _ := rfl
  gain _ _ := rfl
  grid := by decide

theorem carrier_is_silent_square :
    Nat.count (fun j => (run step (interrupted.step (squareWave true 0)) (squareWave false)
        (256 * 1000 + j + 1)).audio = true) 256
      = 255 - AmDemod.magnitude
          (steadySample 4 (∑ i ∈ Finset.range 4096,
            iProduct (interrupted.step (squareWave true 0)) (squareWave false) (4096 * 0 + 1 + i)))
          (steadySample 4 (∑ i ∈ Finset.range 4096,
            qProduct (interrupted.step (squareWave true 0)) (squareWave false) (4096 * 0 + 1 + i)))
          / 256 :=
  carrier_is_silent (pipeline_hasLatency 1 _) (pipeline_hasLatency 7 _) interrupted rfl
    (squareWave false) (fun _ => rfl) squareWave_steady (by decide)

end SdrFpga

end OneBitSDR
