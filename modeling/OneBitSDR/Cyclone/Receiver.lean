import OneBitSDR.Cyclone.AmReceiverEndToEnd
import OneBitSDR.Cyclone.Pwm

set_option autoImplicit false

/-! # The hardware of `sdr.sv` end to end

`sdr` connects `lvds_rf_input`, `am_receiver` and `pwm`. The first two and the last count from the
same reset, but by one clock apart, since `am_receiver` registers it once more. So a decimated
sample reaches `pwm` 12 clocks into a period, and the 16 periods after that one play it: the audio
output repeats each sample 16 times and leaves none out.

A reset does not clear the flops of the valid bit in the demodulator. What they held before plays
no part after the flush of the filters.
-/

namespace OneBitSDR

open Clocked Signal

/-! ## `lvds_rf_input` -/

/-- The registers of `lvds_rf_input`. -/
structure LvdsRfInput (WIDTH : ℕ) where
  integrator_out : Bool
  metastable : BitVec 2
  data_out : BitVec WIDTH

namespace LvdsRfInput

variable {WIDTH : ℕ}

/-- One rising edge of `clock`. -/
def step (s : LvdsRfInput WIDTH) (clock_sreset lvds_in : Bool) : LvdsRfInput WIDTH where
  integrator_out := lvds_in
  metastable := shiftIn s.metastable s.integrator_out
  data_out :=
    if clock_sreset then 0
    else if s.metastable.getLsbD 1 then BitVec.allOnes WIDTH
    else 1

end LvdsRfInput

/-! ## `sdr` -/

/-- The registers of the hardware of `sdr` in the domain of `system_clock`, without those of the
processor system. -/
structure SdrFpga (lpm_mult : LpmMult 16) (altsqrt : AltSqrt 16) where
  rf_in : LvdsRfInput 16
  am_receiver : AmReceiver sdrReceiver lpm_mult altsqrt
  pwm : Pwm 8

namespace SdrFpga

variable {lpm_mult : LpmMult 16} {altsqrt : AltSqrt 16}

/-- The inputs at an edge: the pin, the synchronous reset, what the processor exports, and the
values that resets leave in the data registers of `am_receiver`. -/
structure Ports where
  lvds_in : Bool
  system_clock_sreset : Bool
  cic_gain : BitVec 4
  phase_increment : BitVec 32
  i_dontcare : CicFilter sdrReceiver.cic
  q_dontcare : CicFilter sdrReceiver.cic
  sum_dontcare : BitVec 33

/-- The ports of `am_receiver`. -/
def receiverPorts (s : SdrFpga lpm_mult altsqrt) (i : Ports) : AmReceiverIn sdrReceiver where
  clock_sreset := i.system_clock_sreset
  phase_increment := i.phase_increment
  cic_gain := i.cic_gain
  data_in := s.rf_in.data_out
  i_dontcare := i.i_dontcare
  q_dontcare := i.q_dontcare
  sum_dontcare := i.sum_dontcare

/-- The ports of `pwm`. -/
def pwmPorts (s : SdrFpga lpm_mult altsqrt) (i : Ports) : PwmIn 8 where
  clock_sreset := i.system_clock_sreset
  data_valid := s.am_receiver.demodulated_valid
  data := Pwm.sdrData s.am_receiver.demodulated_out

/-- One rising edge of `system_clock`. -/
def step (s : SdrFpga lpm_mult altsqrt) (i : Ports) : SdrFpga lpm_mult altsqrt where
  rf_in := s.rf_in.step i.system_clock_sreset i.lvds_in
  am_receiver := s.am_receiver.step (s.receiverPorts i)
  pwm := s.pwm.step (s.pwmPorts i)

/-- The pin `audio_out[0]`. -/
def audio (s : SdrFpga lpm_mult altsqrt) : Bool := s.pwm.pwm_out

end SdrFpga

/-! ## The flops of the valid bit -/

namespace AmReceiver

variable {lpm_mult : LpmMult 16} {altsqrt : AltSqrt 16}

/-- The demodulator drives nothing in the receiver: two receivers that agree up to it. -/
structure AgreeUpToDemod (s t : AmReceiver sdrReceiver lpm_mult altsqrt) : Prop where
  clock_sreset_reg : s.clock_sreset_reg = t.clock_sreset_reg
  nco : s.nco = t.nco
  mixer : s.mixer = t.mixer
  i_cic : s.i_cic = t.i_cic
  q_cic : s.q_cic = t.q_cic

theorem AgreeUpToDemod.step {s t : AmReceiver sdrReceiver lpm_mult altsqrt}
    (h : AgreeUpToDemod s t) (u : AmReceiverIn sdrReceiver) :
    AgreeUpToDemod (s.step u) (t.step u) := by
  constructor <;>
    simp only [AmReceiver.step, iPorts, qPorts, h.clock_sreset_reg, h.nco, h.mixer, h.i_cic, h.q_cic]

/-- The receiver with the flops of the valid bit cleared. -/
def drain (s : AmReceiver sdrReceiver lpm_mult altsqrt) : AmReceiver sdrReceiver lpm_mult altsqrt :=
  { s with demod := { s.demod with demod_valid_pipe := 0 } }

section AnyFlops

variable {s : AmReceiver sdrReceiver lpm_mult altsqrt} (hs : s.clock_sreset_reg = true)
  {r : AmReceiverIn sdrReceiver} (hr : r.clock_sreset = false) {u : ℕ → AmReceiverIn sdrReceiver}
  (hu : ∀ n, (u n).clock_sreset = false)

theorem run_agree (n : ℕ) :
    AgreeUpToDemod (run step (s.step r) u n) (run step (s.drain.step r) u n) := by
  have h : AgreeUpToDemod s s.drain := ⟨rfl, rfl, rfl, rfl, rfl⟩
  exact run_relation AgreeUpToDemod (h.step r) (fun k t t' h => h.step (u k)) n

include hs hr in
theorem outOfReset_drain : OutOfReset (s.drain.step r) := outOfReset_release hs rfl hr

include hs hr hu in
theorem demodPorts_of_release (n : ℕ) :
    ((run step (s.step r) u n).demodPorts (u n)).clock_sreset = false := by
  show (run step (s.step r) u n).clock_sreset_reg = false
  rw [(run_agree n).clock_sreset_reg]
  exact run_released (outOfReset_drain hs hr) hu n

include hs hr hu in
/-- The pulses after the first nine edges, whatever the flops held. -/
theorem demodulated_valid_of_release (n : ℕ) (hn : 9 ≤ n) :
    (run step (s.step r) u (n + 1)).demodulated_valid = decide (10 < n ∧ 4096 ∣ n - 10) := by
  obtain ⟨m, rfl⟩ := Nat.exists_eq_add_of_le' hn
  show (run step (s.step r) u (m + 9 + 1)).demod.demod_valid = _
  rw [run_demod, show m + 9 + 1 = m + 10 by omega,
    AmDemod.demod_valid_latency m (fun j _ => demodPorts_of_release hs hr hu (m + j))]
  show (run step (s.step r) u m).i_cic.data_out_valid = _
  rw [(run_agree m).i_cic]
  cases m with
  | zero => exact (outOfReset_drain hs hr).i_valid
  | succ m =>
      rw [run_i_valid (outOfReset_drain hs hr) hu, decide_eq_decide,
        show m + 1 + 9 - 10 = m by omega]
      omega

include hs hr hu in
/-- The sample on the pulse of decimation step `p`. -/
theorem demodulated_out_of_release (hmult : lpm_mult.HasLatency 2 (signedProduct 16))
    (hsqrt : altsqrt.HasLatency 8 (floorSqrt 16))
    (hd : ∀ n, (u n).data_in = (1 : BitVec 16) ∨ (u n).data_in = (-1 : BitVec 16)) (p : ℕ)
    (hp : 11 ≤ p) :
    (run step (s.step r) u (4096 * p + 11)).demodulated_out.toNat
      = AmDemod.magnitude
          (cicSample (iProduct (s.drain.step r) u) (u (4096 * p - 1)).cic_gain p)
          (cicSample (qProduct (s.drain.step r) u) (u (4096 * p - 1)).cic_gain p) := by
  have hreset := outOfReset_drain hs hr
  have hi : (run step (s.step r) u (4096 * p)).i_cic.data_out
      = cicSample (iProduct (s.drain.step r) u) (u (4096 * p - 1)).cic_gain p := by
    rw [(run_agree _).i_cic, run_i_cic]
    exact cic_data_out hreset.i_count hreset.i_comb (iPorts_running hreset hu) (fun _ => rfl)
      (run_mixer_sine hmult hreset hd) p hp rfl
  have hq : (run step (s.step r) u (4096 * p)).q_cic.data_out
      = cicSample (qProduct (s.drain.step r) u) (u (4096 * p - 1)).cic_gain p := by
    rw [(run_agree _).q_cic, run_q_cic]
    exact cic_data_out hreset.q_count hreset.q_comb (qPorts_running hreset hu) (fun _ => rfl)
      (run_mixer_cosine hmult hreset hd) p hp rfl
  have hdemod := AmDemod.demod_latency (s := (s.step r).demod)
    (u := fun k => (run step (s.step r) u k).demodPorts (u k)) hmult hsqrt (4096 * p)
    (demodPorts_of_release hs hr hu _)
  rw [← run_demod (s := s.step r) (u := u)] at hdemod
  rw [← hi, ← hq]
  exact hdemod

end AnyFlops

end AmReceiver

/-! ## A run of `sdr` -/

namespace SdrFpga

variable {lpm_mult : LpmMult 16} {altsqrt : AltSqrt 16}

section Modules

variable (s : SdrFpga lpm_mult altsqrt) (u : ℕ → Ports) (n : ℕ)

/-- The first edge apart, since it releases the reset. -/
theorem run_am_receiver : (run step s u (n + 1)).am_receiver
    = run AmReceiver.step (s.am_receiver.step (s.receiverPorts (u 0)))
        (fun k => (run step s u (k + 1)).receiverPorts (u (k + 1))) n := by
  have h : (run step s u (1 + n)).am_receiver = run AmReceiver.step s.am_receiver
      (fun k => (run step s u k).receiverPorts (u k)) (1 + n) :=
    run_proj SdrFpga.am_receiver receiverPorts (fun _ _ => rfl) s u (1 + n)
  rw [run_add AmReceiver.step] at h
  rw [Nat.add_comm n 1, h]
  refine run_congr AmReceiver.step _ fun k _ => ?_
  rw [Nat.add_comm 1 k]

theorem run_pwm : (run step s u n).pwm
    = run Pwm.step s.pwm (fun k => (run step s u k).pwmPorts (u k)) n :=
  run_proj SdrFpga.pwm pwmPorts (fun _ _ => rfl) s u n

/-- The sample for the bit of edge `n`, three flops later. -/
theorem run_data_out (h : (u (n + 3)).system_clock_sreset = false) :
    (run step s u (n + 4)).rf_in.data_out = if (u n).lvds_in then BitVec.allOnes 16 else 1 := by
  have hmeta : (run step s u (n + 3)).rf_in.metastable.getLsbD 1 = (u n).lvds_in := by
    rw [show (run step s u (n + 3)).rf_in.metastable
      = shiftIn (shiftIn (run step s u (n + 1)).rf_in.metastable
          (run step s u (n + 1)).rf_in.integrator_out) (u (n + 1)).lvds_in from rfl,
      shiftIn, shiftIn, BitVec.getLsbD_shiftConcat, BitVec.getLsbD_shiftConcat]
    simp
    rfl
  show (if (u (n + 3)).system_clock_sreset then 0
    else if (run step s u (n + 3)).rf_in.metastable.getLsbD 1 then BitVec.allOnes 16 else 1) = _
  rw [h, hmeta]
  rfl

end Modules

/-- The last edge of a reset has been. -/
structure InReset (s : SdrFpga lpm_mult altsqrt) : Prop where
  clock_sreset_reg : s.am_receiver.clock_sreset_reg = true
  counter : s.pwm.counter = 0

theorem inReset_step (s : SdrFpga lpm_mult altsqrt) {r : Ports}
    (hr : r.system_clock_sreset = true) : InReset (s.step r) where
  clock_sreset_reg := hr
  counter := by simp [step, pwmPorts, Pwm.step, hr]

/-- The number a bit of the input stands for. -/
def sign (lvds_in : Bool) : ℤ := if lvds_in then -1 else 1

/-- A product of the I path: the bit of edge `n` and the sine four edges later. -/
def iProduct (s : SdrFpga lpm_mult altsqrt) (u : ℕ → Ports) (n : ℕ) : ℤ :=
  sign (u n).lvds_in * ((run step s u (n + 4)).am_receiver.nco.sine_out 16).toInt

/-- A product of the Q path. -/
def qProduct (s : SdrFpga lpm_mult altsqrt) (u : ℕ → Ports) (n : ℕ) : ℤ :=
  sign (u n).lvds_in * ((run step s u (n + 4)).am_receiver.nco.cosine_out 16).toInt

/-- What the I filter delivers for decimation step `p`, with the gain at its edge: the exact
response to the products up to number `4096 (p - 5) - 10`. -/
noncomputable def iSample (s : SdrFpga lpm_mult altsqrt) (u : ℕ → Ports) (p : ℕ) : BitVec 16 :=
  AmReceiver.cicSample (fun m => iProduct s u (m - 3)) (u (4096 * p)).cic_gain p

/-- What the Q filter delivers. -/
noncomputable def qSample (s : SdrFpga lpm_mult altsqrt) (u : ℕ → Ports) (p : ℕ) : BitVec 16 :=
  AmReceiver.cicSample (fun m => qProduct s u (m - 3)) (u (4096 * p)).cic_gain p

/-- The window of a step is free of the first three products. -/
theorem cicSample_congr {x y : ℕ → ℤ} (h : ∀ m, x (m + 3) = y (m + 3)) (gain : BitVec 4) {p : ℕ}
    (hp : 11 ≤ p) : AmReceiver.cicSample x gain p = AmReceiver.cicSample y gain p := by
  have hwindow : windowResponse 4096 5 x ((p - 5) * 4096 - 7)
      = windowResponse 4096 5 y ((p - 5) * 4096 - 7) := by
    apply windowResponse_congr
    intro j hj
    have hlate := h ((p - 5) * 4096 - 7 - j - 3)
    rw [show (p - 5) * 4096 - 7 - j - 3 + 3 = (p - 5) * 4096 - 7 - j by omega] at hlate
    exact hlate
  rw [AmReceiver.cicSample, AmReceiver.cicSample, hwindow]

section Release

variable {s : SdrFpga lpm_mult altsqrt} (hs : InReset s) {u : ℕ → Ports}
  (hu : ∀ n, (u n).system_clock_sreset = false)

include hu in
theorem data_in_of_release (n : ℕ) :
    (run step s u (n + 1)).rf_in.data_out = (1 : BitVec 16)
      ∨ (run step s u (n + 1)).rf_in.data_out = (-1 : BitVec 16) := by
  have h : (run step s u (n + 1)).rf_in.data_out
      = if (run step s u n).rf_in.metastable.getLsbD 1 then BitVec.allOnes 16 else 1 := by
    show (if (u n).system_clock_sreset then 0 else _) = _
    rw [hu n]
    rfl
  rw [h]
  cases (run step s u n).rf_in.metastable.getLsbD 1 with
  | false => exact Or.inl rfl
  | true => exact Or.inr (by decide)

include hu in
theorem toInt_data_out (n : ℕ) :
    (run step s u (n + 4)).rf_in.data_out.toInt = sign (u n).lvds_in := by
  rw [run_data_out s u n (hu _), sign]
  cases (u n).lvds_in <;> rfl

include hs hu in
/-- The sample that is accepted for decimation step `p`. -/
theorem demodulated_out_step (hmult : lpm_mult.HasLatency 2 (signedProduct 16))
    (hsqrt : altsqrt.HasLatency 8 (floorSqrt 16)) {p : ℕ} (hp : 11 ≤ p) :
    (run step s u (4096 * p + 12)).am_receiver.demodulated_out
      = BitVec.ofNat 16 (AmDemod.magnitude (iSample s u p) (qSample s u p)) := by
  have hout := AmReceiver.demodulated_out_of_release hs.clock_sreset_reg
    (r := s.receiverPorts (u 0)) (hu 0)
    (u := fun k => (run step s u (k + 1)).receiverPorts (u (k + 1))) (fun n => hu (n + 1)) hmult
    hsqrt (data_in_of_release hu) p hp
  have hnco : ∀ m, (run step s u (m + 4)).am_receiver.nco
      = (run AmReceiver.step (s.am_receiver.drain.step (s.receiverPorts (u 0)))
          (fun k => (run step s u (k + 1)).receiverPorts (u (k + 1))) (m + 3)).nco := by
    intro m
    rw [run_am_receiver s u (m + 3)]
    exact (AmReceiver.run_agree (m + 3)).nco
  have hgain : 4096 * p - 1 + 1 = 4096 * p := by omega
  have hi : iSample s u p = AmReceiver.cicSample (AmReceiver.iProduct
      (s.am_receiver.drain.step (s.receiverPorts (u 0)))
      (fun k => (run step s u (k + 1)).receiverPorts (u (k + 1))))
      (u (4096 * p - 1 + 1)).cic_gain p := by
    rw [iSample, hgain]
    refine cicSample_congr (fun m => ?_) _ hp
    rw [Nat.add_sub_cancel, iProduct, ← toInt_data_out hu, hnco]
    rfl
  have hq : qSample s u p = AmReceiver.cicSample (AmReceiver.qProduct
      (s.am_receiver.drain.step (s.receiverPorts (u 0)))
      (fun k => (run step s u (k + 1)).receiverPorts (u (k + 1))))
      (u (4096 * p - 1 + 1)).cic_gain p := by
    rw [qSample, hgain]
    refine cicSample_congr (fun m => ?_) _ hp
    rw [Nat.add_sub_cancel, qProduct, ← toInt_data_out hu, hnco]
    rfl
  rw [hi, hq]
  rw [← run_am_receiver s u (4096 * p + 11)] at hout
  apply BitVec.eq_of_toNat_eq
  rw [BitVec.toNat_ofNat, Nat.mod_eq_of_lt (AmDemod.magnitude_lt _ _)]
  exact hout

include hs hu in
/-- The pulses from edge 11 on. -/
theorem demodulated_valid_step {n : ℕ} (hn : 11 ≤ n) :
    (run step s u n).am_receiver.demodulated_valid = decide (12 < n ∧ 4096 ∣ n - 12) := by
  obtain ⟨m, rfl⟩ := Nat.exists_eq_add_of_le' (show 2 ≤ n by omega)
  rw [show m + 2 = m + 1 + 1 by omega, run_am_receiver,
    AmReceiver.demodulated_valid_of_release hs.clock_sreset_reg (hu 0) (fun k => hu (k + 1)) m
      (by omega), decide_eq_decide, show m + 1 + 1 - 12 = m - 10 by omega]
  omega

include hs hu in
/-- A period of `pwm` starts every 256 edges. -/
theorem counter_step (k : ℕ) : (run step s u (256 * k)).pwm.counter = 0 := by
  have h : (run step s u (256 * k)).pwm.counter = s.pwm.counter + BitVec.ofNat 8 (256 * k) :=
    run_freeRunning_of (fun t : SdrFpga lpm_mult altsqrt => t.pwm.counter)
      (fun j _ => Pwm.step_counter (hu j))
  rw [h, hs.counter]
  apply BitVec.eq_of_toNat_eq
  simp

include hs hu in
/-- The sixteen periods of decimation step `p`. -/
theorem count_audio (hmult : lpm_mult.HasLatency 2 (signedProduct 16))
    (hsqrt : altsqrt.HasLatency 8 (floorSqrt 16)) {p k : ℕ} (hp : 11 ≤ p) (hlow : 16 * p < k)
    (hhigh : k ≤ 16 * p + 16) :
    Nat.count (fun j => (run step s u (256 * k + j + 1)).audio = true) 256
      = 255 - AmDemod.magnitude (iSample s u p) (qSample s u p) / 256 := by
  -- the accepting edge is edge 12 of the first of sixteen periods
  have hvalid : (run step s u (4096 * p + 12)).am_receiver.demodulated_valid = true := by
    rw [demodulated_valid_step hs hu (by omega)]
    exact decide_eq_true ⟨by omega, by rw [Nat.add_sub_cancel]; exact Nat.dvd_mul_right 4096 p⟩
  have hlast : ∀ i, 4096 * p + 12 < i → i + 1 < 256 * k →
      (run step s u i).am_receiver.demodulated_valid = false := by
    intro i hi hik
    rw [demodulated_valid_step hs hu (by omega)]
    exact decide_eq_false (by omega)
  have h0 := counter_step hs hu k
  rw [run_pwm] at h0
  have hcount := Pwm.high_counts (s := s.pwm) (u := fun k => (run step s u k).pwmPorts (u k))
    (j := 4096 * p + 12) hu h0 (by omega) hvalid hlast
  calc Nat.count (fun j => (run step s u (256 * k + j + 1)).audio = true) 256
      = Pwm.duty (iSample s u p) (qSample s u p) := by
        rw [Pwm.duty, ← demodulated_out_step hs hu hmult hsqrt hp]
        simp only [audio, run_pwm]
        exact hcount
    _ = 255 - AmDemod.magnitude (iSample s u p) (qSample s u p) / 256 := Pwm.duty_eq _ _

end Release

/-- **Every sample is played sixteen times.** From any state an edge with the reset leads into the
reset, and the edges after it are without. Whatever the input and the two values of the processor do
then: the periods of the audio output start on every multiple of 256 edges, and in the periods
number `16 p + 1` to `16 p + 16` the output is high for 255 clocks less the upper byte of the
magnitude of decimation step `p`, for every step from 11 on. The samples of a step are the exact
responses of the filters, scaled by the gain at the edge of the step and cut to 16 bits. So all
steps are played in their order, none of them shorter or longer than another. -/
theorem cyclone_receiver_end_to_end (hmult : lpm_mult.HasLatency 2 (signedProduct 16))
    (hsqrt : altsqrt.HasLatency 8 (floorSqrt 16)) (s : SdrFpga lpm_mult altsqrt) {r : Ports}
    (hr : r.system_clock_sreset = true) (u : ℕ → Ports)
    (hu : ∀ n, (u n).system_clock_sreset = false) {p k : ℕ} (hp : 11 ≤ p) (hlow : 16 * p < k)
    (hhigh : k ≤ 16 * p + 16) :
    (run step (s.step r) u (256 * k)).pwm.counter = 0 ∧
      Nat.count (fun j => (run step (s.step r) u (256 * k + j + 1)).audio = true) 256
        = 255 - AmDemod.magnitude (iSample (s.step r) u p) (qSample (s.step r) u p) / 256 :=
  ⟨counter_step (inReset_step s hr) hu k,
    count_audio (inReset_step s hr) hu hmult hsqrt hp hlow hhigh⟩

/-- A square wave at the input, and the values of the processor after power-up. -/
def squareWave (system_clock_sreset : Bool) (n : ℕ) : Ports where
  lvds_in := decide (n % 64 < 32)
  system_clock_sreset := system_clock_sreset
  cic_gain := 4
  phase_increment := 0x02000000
  i_dontcare := AmReceiver.clearedCic
  q_dontcare := AmReceiver.clearedCic
  sum_dontcare := 0

/-- Two valid bits are left in the demodulator. -/
def interrupted : SdrFpga (pipeline 1 (signedProduct 16)) (pipeline 7 (floorSqrt 16)) where
  rf_in := { integrator_out := true, metastable := 1, data_out := 77 }
  am_receiver := { AmReceiver.heldInReset with
    demod := { AmDemod.cleared with demod_valid_pipe := 0x11 } }
  pwm := { counter := 33, data_reg := 0, compare_reg := 99, pwm_out := true }

/-- The first of the periods of step 11. -/
theorem cyclone_receiver_end_to_end_square :
    Nat.count (fun j => (run step (interrupted.step (squareWave true 0)) (squareWave false)
        (256 * 177 + j + 1)).audio = true) 256
      = 255 - AmDemod.magnitude
          (iSample (interrupted.step (squareWave true 0)) (squareWave false) 11)
          (qSample (interrupted.step (squareWave true 0)) (squareWave false) 11) / 256 :=
  (cyclone_receiver_end_to_end (pipeline_hasLatency 1 _) (pipeline_hasLatency 7 _) interrupted rfl
    (squareWave false) (fun _ => rfl) (le_refl 11) (by decide) (by decide)).2

end SdrFpga

end OneBitSDR
