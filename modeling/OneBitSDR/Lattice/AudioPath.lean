import OneBitSDR.Lattice.AMDemodulator
import OneBitSDR.Lattice.PWM

set_option autoImplicit false

/-! # The audio path of `top.v`

`top` wires `DemodOut`, the 12-bit unsigned magnitude, to `DataIn` of `PWM1`, which was written
for a signed input: it adds 512 and compares 10 bits. So the duty grows with the magnitude from
512 at silence up to the full period at 511, and falls back to one clock at 512, 1536 and 2560.
The demodulator is clocked by the CIC filter, once per decimated sample, the PWM by `osc_clk`.
-/

namespace OneBitSDR

open Clocked Signal

/-- `AMDemodulator1` and `PWM1` of `top`. -/
structure AudioPath (mult : Multiplier) where
  AMDemodulator1 : AMDemodulator mult
  PWM1 : PWM

namespace AudioPath

variable {mult : Multiplier}

/-- One rising edge of `osc_clk`. Where the edge raises `CIC1_out_clkSin`, the demodulator is
clocked as well and `sample` is what the two filters deliver. -/
def step (s : AudioPath mult) (sample : Option IQ) : AudioPath mult where
  AMDemodulator1 := gated AMDemodulator.step s.AMDemodulator1 sample
  PWM1 := s.PWM1.step s.AMDemodulator1.d_out

/-- A PWM period that latches the demodulator output for the samples `iq`: it starts at `edge`,
and `L + 3` more samples have come since `iq`, as the latency of the demodulator asks. -/
structure Period (mult : Multiplier) (L : ℕ) (iq : IQ) where
  start : AudioPath mult
  samples : ℕ → Option IQ
  edge : ℕ
  index : ℕ
  begins : (run step start samples edge).PWM1.counter = 0
  length_eq : (events samples edge).length = index + L + 4
  sample_eq : (events samples edge)[index]? = some iq

/-- The number of clocks of the period in which `PWMOut` is high. -/
def Period.high {L : ℕ} {iq : IQ} (P : Period mult L iq) : ℕ :=
  Nat.count (fun k => (run step P.start P.samples (P.edge + k + 1)).PWM1.PWMOut = true) 1024

theorem run_AMDemodulator1 (s : AudioPath mult) (samples : ℕ → Option IQ) (n : ℕ) :
    (run step s samples n).AMDemodulator1
      = run (gated AMDemodulator.step) s.AMDemodulator1 samples n :=
  run_proj AudioPath.AMDemodulator1 (fun _ i => i) (fun _ _ => rfl) s samples n

theorem run_PWM1 (s : AudioPath mult) (samples : ℕ → Option IQ) (n : ℕ) :
    (run step s samples n).PWM1
      = run PWM.step s.PWM1 (fun k => (run step s samples k).AMDemodulator1.d_out) n :=
  run_proj AudioPath.PWM1 (fun s _ => s.AMDemodulator1.d_out) (fun _ _ => rfl) s samples n

/-- What the demodulator shows after any number of samples. -/
theorem run_d_out {L : ℕ} (hmult : mult.HasLatency L (signedProduct 12)) (s : AudioPath mult)
    (samples : ℕ → Option IQ) {n index : ℕ} {iq : IQ}
    (hlen : (events samples n).length = index + L + 4)
    (hsample : (events samples n)[index]? = some iq) :
    (run step s samples n).AMDemodulator1.d_out.toNat = iq.magnitude := by
  have hrun : (run step s samples n).AMDemodulator1
      = run AMDemodulator.step s.AMDemodulator1 (fun k => (events samples n).getD k iq)
          (index + L + 4) := by
    rw [run_AMDemodulator1, run_gated, foldl_eq_run _ _ _ iq, hlen]
  rw [hrun, AMDemodulator.d_out_magnitude hmult, List.getD_eq_getElem?_getD, hsample]
  rfl

/-- **The duty.** A period is high for one clock more than the magnitude and the offset make
modulo `2 ^ 10`. -/
theorem Period.high_eq {L : ℕ} (hmult : mult.HasLatency L (signedProduct 12)) {iq : IQ}
    (P : Period mult L iq) : P.high = (iq.magnitude + 512) % 1024 + 1 := by
  have hpwm : ∀ k, (run step P.start P.samples (P.edge + k)).PWM1
      = run PWM.step (run step P.start P.samples P.edge).PWM1
          (fun j => (run step P.start P.samples (P.edge + j)).AMDemodulator1.d_out) k := by
    intro k
    rw [run_add, run_PWM1]
    apply run_congr
    intro j _
    rw [run_add]
  have hhigh := PWM.highEdges_eq P.begins
    (fun j => (run step P.start P.samples (P.edge + j)).AMDemodulator1.d_out)
  -- only the output at the first edge of the period is latched
  have hlatched : PWM.compared (run step P.start P.samples (P.edge + 0)).AMDemodulator1.d_out
      = (iq.magnitude + 512) % 1024 := by
    have hout := run_d_out hmult P.start P.samples P.length_eq P.sample_eq
    rw [PWM.compared, Nat.add_zero P.edge, hout]
  rw [hlatched] at hhigh
  rw [← hhigh]
  unfold Period.high PWM.highEdges
  simp only [Nat.add_assoc, hpwm]

/-! ## Monotonicity -/

/-- The number of magnitudes at which the duty falls back between two magnitudes. -/
def wraps (m₁ m₂ : ℕ) : ℕ := [512, 1536, 2560].countP (fun w => m₁ < w ∧ w ≤ m₂)

/-- Up to the largest magnitude the duty is the magnitude less a period for each wrap. -/
theorem duty_le_iff {m₁ m₂ : ℕ} (h : m₁ ≤ m₂) (hmax : m₂ ≤ 2896) :
    (m₁ + 512) % 1024 ≤ (m₂ + 512) % 1024 ↔ 1024 * wraps m₁ m₂ ≤ m₂ - m₁ := by
  unfold wraps
  -- by the side on which the two magnitudes lie of each of the three wraps
  simp only [List.countP_cons, List.countP_nil, decide_eq_true_eq]
  split_ifs <;> omega

/-- **When the duty is monotone.** For two periods that latched the outputs for samples with
`m₁ ≤ m₂`, the first is high for at most as many clocks as the second if and only if the
magnitudes are at least 1024 apart for every wrap between them. -/
theorem pwm_duty_monotone_iff {L : ℕ} (hmult : mult.HasLatency L (signedProduct 12))
    {iq₁ iq₂ : IQ} (P₁ : Period mult L iq₁) (P₂ : Period mult L iq₂)
    (h : iq₁.magnitude ≤ iq₂.magnitude) :
    P₁.high ≤ P₂.high
      ↔ 1024 * wraps iq₁.magnitude iq₂.magnitude ≤ iq₂.magnitude - iq₁.magnitude := by
  rw [P₁.high_eq hmult, P₂.high_eq hmult, Nat.add_le_add_iff_right]
  exact duty_le_iff h iq₂.magnitude_le

/-! ### The first wrap -/

/-- All registers cleared, but for the counter. -/
def cleared (counter : BitVec 10) : AudioPath (pipeline 1 (signedProduct 12)) where
  AMDemodulator1 :=
    { MultDataA := 0, MultDataB := 0, MultDataC := 0, MultDataD := 0
      Multiplier1 := fun _ => 0, Multiplier2 := fun _ => 0
      ISquare := 0, d_out_d := 0, d_out := 0 }
  PWM1 := { counter := counter, DataInReg := 0, PWMOut := false }

/-- The same samples on six edges in a row, and then a period. -/
def constantPeriod (iq : IQ) : Period (pipeline 1 (signedProduct 12)) 2 iq where
  start := cleared 1018
  samples := fun _ => some iq
  edge := 6
  index := 0
  begins := by
    rw [run_PWM1, PWM.run_counter]
    rfl
  length_eq := rfl
  sample_eq := rfl

/-- A real positive sample. -/
def real (I : BitVec 12) : IQ where
  I_in := I
  Q_in := 0

theorem magnitude_real {I : BitVec 12} {m : ℕ} (h : I.toInt = m) : (real I).magnitude = m := by
  unfold IQ.magnitude AmDemod.magnitude AmDemod.power real
  dsimp only
  rw [h]
  simp [Nat.sqrt_eq']

/-- The duty falls from the whole period to one clock between 511 and 512. -/
theorem pwm_duty_wraps :
    (pipeline 1 (signedProduct 12)).HasLatency 2 (signedProduct 12) ∧
    (real 511).magnitude ≤ (real 512).magnitude ∧
    (constantPeriod (real 511)).high = 1024 ∧ (constantPeriod (real 512)).high = 1 ∧
    ¬ (constantPeriod (real 511)).high ≤ (constantPeriod (real 512)).high := by
  have hlow : (real 511).magnitude = 511 := magnitude_real rfl
  have hhigh : (real 512).magnitude = 512 := magnitude_real rfl
  have h511 := (constantPeriod (real 511)).high_eq (pipeline_hasLatency 1 _)
  have h512 := (constantPeriod (real 512)).high_eq (pipeline_hasLatency 1 _)
  rw [hlow] at h511
  rw [hhigh] at h512
  refine ⟨pipeline_hasLatency 1 _, ?_, h511, h512, ?_⟩
  · omega
  · omega

/-- Below the first wrap. -/
theorem pwm_duty_monotone_below :
    (real 100).magnitude ≤ (real 200).magnitude ∧
    ((constantPeriod (real 100)).high ≤ (constantPeriod (real 200)).high
      ↔ 1024 * wraps (real 100).magnitude (real 200).magnitude
        ≤ (real 200).magnitude - (real 100).magnitude) := by
  have hle : (real 100).magnitude ≤ (real 200).magnitude := by
    rw [magnitude_real (I := 100) (m := 100) rfl, magnitude_real (I := 200) (m := 200) rfl]
    decide
  exact ⟨hle, pwm_duty_monotone_iff (pipeline_hasLatency 1 _) (constantPeriod (real 100))
    (constantPeriod (real 200)) hle⟩

end AudioPath

end OneBitSDR
