import OneBitSDR.Lattice.AudioPath
import OneBitSDR.Lattice.CommandPath
import OneBitSDR.Lattice.Handover
import OneBitSDR.Lattice.SinCos

set_option autoImplicit false

/-! # The receiver of `top.v` end to end

`top` connects the command decoder, the oscillator, the mixer, two `CIC` filters, the demodulator
and the PWM. Nothing in it is ever reset, but a few registers have initial values. After the edges
that flush the filters, each decimation step goes from the bits of the antenna to the audio pin,
whatever the commands are in the meantime.

The demodulator is clocked by one of the filters, and both write their outputs on the very edge that
raises this clock. Nothing in the design settles whether it reads them before or after they change,
so the model leaves that open, for each filter and each edge.
-/

namespace OneBitSDR

open Clocked Signal

/-! ## The steps of a filter -/

namespace Cic

section Steps

variable {c : Cic 72} (hc : c.PowerUp) (v : ℕ → CicPort)
include hc

theorem run_v_comb (n : ℕ) : (run (step 4096) c v n).v_comb = decide (0 < n ∧ 4096 ∣ n) :=
  (inv_run (by omega) (by omega) hc.count hc.v_comb n).comb

/-- The output stays until the next step. -/
theorem d_out_until (p : ℕ) :
    (run (step 4096) c v (4096 * (p + 1))).d_out = (run (step 4096) c v (4096 * p + 1)).d_out := by
  refine run_hold Cic.d_out (by omega) fun k hk hkn => ?_
  apply step_d_out_hold
  rw [run_v_comb hc]
  exact decide_eq_false (by omega)

end Steps

end Cic

/-! ## `Mixer.v` -/

/-- The registers of `Mixer`. -/
structure LatticeMixer where
  RFInR1 : Bool
  RFInR : Bool
  MixerOutSin : BitVec 12
  MixerOutCos : BitVec 12

namespace LatticeMixer

/-- One rising edge of `clk`. -/
def step (s : LatticeMixer) (RFIn : Bool) (sin_in cos_in : BitVec 12) : LatticeMixer where
  RFInR1 := RFIn
  RFInR := s.RFInR1
  MixerOutSin := if s.RFInR = false then sin_in else -sin_in
  MixerOutCos := if s.RFInR = false then cos_in else -cos_in

end LatticeMixer

/-! ## `top` -/

/-- The registers of `top`, those of its modules included. -/
structure Top (mult : Multiplier) where
  commands : CommandPath
  oscillator : LocalOscillator
  Mixer1 : LatticeMixer
  CIC1Sin : Cic 72
  CIC1Cos : Cic 72
  audio : AudioPath mult

namespace Top

variable {mult : Multiplier}

/-- The inputs of `top` at an edge; and if the edge raises the clock of the demodulator, whether the
demodulator reads `CIC1Sin` and `CIC1Cos` after the edge or before it. -/
structure Ports where
  i_Rx_Serial : Bool
  RFIn : Bool
  iAfter : Bool
  qAfter : Bool

/-- The ports of `CIC1Sin`. -/
def sinPorts (s : Top mult) : CicPort where
  Gain := s.commands.tuned.CICGain
  d_in := s.Mixer1.MixerOutSin

/-- The ports of `CIC1Cos`. -/
def cosPorts (s : Top mult) : CicPort where
  Gain := s.commands.tuned.CICGain
  d_in := s.Mixer1.MixerOutCos

/-- What the demodulator takes in at an edge that raises `CIC1_out_clkSin`. -/
def sample (s : Top mult) (i : Ports) : Option IQ :=
  if !s.CIC1Sin.d_clk && (s.CIC1Sin.step 4096 s.sinPorts).d_clk then
    some
      { I_in := if i.iAfter then (s.CIC1Sin.step 4096 s.sinPorts).d_out else s.CIC1Sin.d_out
        Q_in := if i.qAfter then (s.CIC1Cos.step 4096 s.cosPorts).d_out else s.CIC1Cos.d_out }
  else none

/-- One rising edge of `osc_clk`. -/
def step (s : Top mult) (i : Ports) : Top mult where
  commands := s.commands.step i.i_Rx_Serial
  oscillator := s.oscillator.step s.commands.phase_inc_carrGen1
  Mixer1 := s.Mixer1.step i.RFIn (s.oscillator.SinCos1.Sine.extractLsb' 1 12)
    (s.oscillator.SinCos1.Cosine.extractLsb' 1 12)
  CIC1Sin := s.CIC1Sin.step 4096 s.sinPorts
  CIC1Cos := s.CIC1Cos.step 4096 s.cosPorts
  audio := s.audio.step (s.sample i)

/-! ### The modules inside a run -/

section Modules

variable (s : Top mult) (u : ℕ → Ports) (n : ℕ)

theorem run_oscillator : (run step s u n).oscillator
    = run LocalOscillator.step s.oscillator
        (fun k => (run step s u k).commands.phase_inc_carrGen1) n :=
  run_proj Top.oscillator (fun t _ => t.commands.phase_inc_carrGen1) (fun _ _ => rfl) s u n

theorem run_CIC1Sin : (run step s u n).CIC1Sin
    = run (Cic.step 4096) s.CIC1Sin (fun k => (run step s u k).sinPorts) n :=
  run_proj Top.CIC1Sin (fun t _ => t.sinPorts) (fun _ _ => rfl) s u n

theorem run_CIC1Cos : (run step s u n).CIC1Cos
    = run (Cic.step 4096) s.CIC1Cos (fun k => (run step s u k).cosPorts) n :=
  run_proj Top.CIC1Cos (fun t _ => t.cosPorts) (fun _ _ => rfl) s u n

theorem run_audio : (run step s u n).audio
    = run AudioPath.step s.audio (fun k => (run step s u k).sample (u k)) n :=
  run_proj Top.audio sample (fun _ _ => rfl) s u n

end Modules

/-! ### The mixer loses nothing -/

/-- The sign a bit of the antenna stands for. -/
def sign (RFIn : Bool) : ℤ := if RFIn = false then 1 else -1

/-- A product of the I path: the bit of edge `n` and the sine that has come out two edges later,
without its last bit. -/
def iProduct (s : Top mult) (u : ℕ → Ports) (n : ℕ) : ℤ :=
  sign (u n).RFIn * ((run step s u (n + 2)).oscillator.SinCos1.Sine.toInt / 2)

/-- A product of the Q path. -/
def qProduct (s : Top mult) (u : ℕ → Ports) (n : ℕ) : ℤ :=
  sign (u n).RFIn * ((run step s u (n + 2)).oscillator.SinCos1.Cosine.toInt / 2)

theorem toInt_upperTwelve (x : BitVec 13) : (x.extractLsb' 1 12).toInt = x.toInt / 2 := by
  have hlt := x.isLt
  rw [BitVec.toInt_eq_toNat_cond, BitVec.toInt_eq_toNat_cond, BitVec.extractLsb'_toNat,
    Nat.shiftRight_eq_div_pow]
  split_ifs <;> omega

/-- Within the amplitude of the table the change of sign does not overflow. -/
theorem toInt_mixed (RFIn : Bool) {x : BitVec 13} (hx : |x.toInt| ≤ 2048) :
    (if RFIn = false then x.extractLsb' 1 12 else -x.extractLsb' 1 12).toInt
      = sign RFIn * (x.toInt / 2) := by
  obtain ⟨hlow, hhigh⟩ := abs_le.mp hx
  unfold sign
  split_ifs
  · rw [toInt_upperTwelve, one_mul]
  · rw [BitVec.toInt_neg, toInt_upperTwelve, neg_one_mul]
    exact Int.bmod_eq_of_le (by omega) (by omega)

section Mixer

variable (s : Top mult) (u : ℕ → Ports) (n : ℕ)

/-- From the third edge on the table shows words of the table. -/
theorem abs_run_SinCos1 :
    |(run step s u (n + 3)).oscillator.SinCos1.Sine.toInt| ≤ 2048 ∧
      |(run step s u (n + 3)).oscillator.SinCos1.Cosine.toInt| ≤ 2048 := by
  rw [run_oscillator, LocalOscillator.run_SinCos1, SinCos.run_Sine, SinCos.run_Cosine]
  refine ⟨?_, ?_⟩
  · split_ifs
    · rw [SinCos.toInt_peakWord]
      split_ifs <;> decide
    · exact SinCos.abs_sine_le _
  · rw [← SinCos.sine_add_quarterTurn]
    exact SinCos.abs_sine_le _

theorem run_MixerOutSin :
    (run step s u (n + 1 + 3)).Mixer1.MixerOutSin.toInt = iProduct s u (n + 1) :=
  toInt_mixed (u (n + 1)).RFIn (abs_run_SinCos1 s u n).1

theorem run_MixerOutCos :
    (run step s u (n + 1 + 3)).Mixer1.MixerOutCos.toInt = qProduct s u (n + 1) :=
  toInt_mixed (u (n + 1)).RFIn (abs_run_SinCos1 s u n).2

end Mixer

/-! ### The decimation steps -/

/-- The output of a filter for decimation step `p`: a window of the response to the products `x`. -/
noncomputable def response (x : ℕ → ℤ) (Gain : BitVec 8) (p : ℕ) : BitVec 12 :=
  BitVec.ofInt 12 (windowResponse 4096 5 x ((p - 5) * 4096 - 9) / 2 ^ Cic.shiftAmount 72 Gain)

/-- Decimation step `p` of both filters, with the gain at its edge. -/
noncomputable def decimated (s : Top mult) (u : ℕ → Ports) (p : ℕ) : IQ where
  I_in := response (iProduct s u) (run step s u (4096 * p)).commands.tuned.CICGain p
  Q_in := response (qProduct s u) (run step s u (4096 * p)).commands.tuned.CICGain p

section Decimation

variable {c : Cic 72} (hc : c.PowerUp) {v : ℕ → CicPort} {x : ℕ → ℤ}
include hc

/-- A filter that reads the products three edges late. -/
theorem d_out_eq_response (hx : ∀ n, (v (n + 1 + 3)).d_in.toInt = x (n + 1)) {p : ℕ} (hp : 11 ≤ p) :
    (run (Cic.step 4096) c v (4096 * p + 1)).d_out = response x (v (4096 * p)).Gain p := by
  have hcomb : (run (Cic.step 4096) c v (4096 * p)).v_comb = true := by
    rw [Cic.run_v_comb hc]
    exact decide_eq_true ⟨by omega, Nat.dvd_mul_right 4096 p⟩
  have hlen : (Cic.outputs 4096 c v (4096 * p + 1)).length = p := by
    rw [Cic.outputs_length (by omega) (by omega) hc.count hc.v_comb]
    omega
  have hwindow : windowResponse 4096 5 (fun k => (v k).d_in.toInt) ((p - 5) * 4096 - 6)
      = windowResponse 4096 5 x ((p - 5) * 4096 - 9) := by
    apply windowResponse_congr
    intro j hj
    have hlate := hx ((p - 5) * 4096 - 9 - j - 1)
    rw [show (p - 5) * 4096 - 9 - j - 1 + 1 + 3 = (p - 5) * 4096 - 6 - j by omega,
      show (p - 5) * 4096 - 9 - j - 1 + 1 = (p - 5) * 4096 - 9 - j by omega] at hlate
    exact hlate
  rw [Cic.d_out_response (by omega) (by omega) (by norm_num) hc.count hc.v_comb hcomb hlen hp,
    hwindow, response]

end Decimation

section Delivery

variable {s : Top mult} (hi : s.CIC1Sin.PowerUp) (hq : s.CIC1Cos.PowerUp) (u : ℕ → Ports)

/-- What the demodulator finds at edge `n`. -/
def found (s : Top mult) (u : ℕ → Ports) (n : ℕ) : IQ where
  I_in := (run step s u (n + (u n).iAfter.toNat)).CIC1Sin.d_out
  Q_in := (run step s u (n + (u n).qAfter.toNat)).CIC1Cos.d_out

include hi in
theorem run_sample {n : ℕ} (hn : 0 < n) :
    (run step s u n).sample (u n) = if 4096 ∣ n then some (found s u n) else none := by
  have hrises : (!(run step s u n).CIC1Sin.d_clk && (run step s u (n + 1)).CIC1Sin.d_clk)
      = decide (4096 ∣ n) := by
    have h := Cic.raises_eq_v_comb (R := 4096) (by omega) hi
      (fun k => (run step s u k).sinPorts) hn
    rw [Cic.run_v_comb hi, Cic.raises, ← run_CIC1Sin, ← run_CIC1Sin] at h
    rw [h, decide_eq_decide]
    exact and_iff_right hn
  have hsample : (run step s u n).sample (u n)
      = if !(run step s u n).CIC1Sin.d_clk && (run step s u (n + 1)).CIC1Sin.d_clk
        then some (found s u n) else none := by
    rw [sample, found]
    cases (u n).iAfter <;> cases (u n).qAfter <;> rfl
  rw [hsample, hrises]
  simp only [decide_eq_true_eq]

include hi in
/-- One sample for each step, and perhaps one at power-up. -/
theorem samples_length (n : ℕ) :
    (events (fun k => (run step s u k).sample (u k)) (n + 1)).length
      = (s.sample (u 0)).toList.length + n / 4096 := by
  induction n with
  | zero => rfl
  | succ n ih =>
      rw [events_succ, List.length_append, ih, run_sample hi u (Nat.succ_pos n), Nat.succ_div]
      split_ifs <;> rfl

include hi in
theorem samples_getElem {p n : ℕ} (hn : 4096 * (p + 1) < n) :
    (events (fun k => (run step s u k).sample (u k)) n)[(s.sample (u 0)).toList.length + p]?
      = some (found s u (4096 * (p + 1))) := by
  have hlen := samples_length hi u (4096 * (p + 1) - 1)
  rw [show 4096 * (p + 1) - 1 + 1 = 4096 * (p + 1) by omega,
    show (4096 * (p + 1) - 1) / 4096 = p by omega] at hlen
  have hnew : events (fun k => (run step s u k).sample (u k)) (4096 * (p + 1) + 1)
      = events (fun k => (run step s u k).sample (u k)) (4096 * (p + 1))
        ++ [found s u (4096 * (p + 1))] := by
    apply events_succ_some
    rw [run_sample hi u (by omega), if_pos (Nat.dvd_mul_right 4096 (p + 1))]
  obtain ⟨later, hlater⟩ := events_mono (fun k => (run step s u k).sample (u k))
    (show 4096 * (p + 1) + 1 ≤ n by omega)
  rw [← hlater, hnew, ← hlen]
  simp

/-- The step that is read from a filter at the edge of step `p`. -/
def stepRead (p : ℕ) (after : Bool) : ℕ := if after then p else p - 1

/-- What the demodulator takes in at the edge of step `p`. -/
noncomputable def pairRead (s : Top mult) (u : ℕ → Ports) (p : ℕ) : IQ where
  I_in := (decimated s u (stepRead p (u (4096 * p)).iAfter)).I_in
  Q_in := (decimated s u (stepRead p (u (4096 * p)).qAfter)).Q_in

/-- A filter with the outputs `x` shows step `p` or the one before it. -/
theorem d_out_stepRead {c : Cic 72} (hc : c.PowerUp) (v : ℕ → CicPort) {x : ℕ → BitVec 12}
    (hx : ∀ q, 11 ≤ q → (run (Cic.step 4096) c v (4096 * q + 1)).d_out = x q) {p : ℕ}
    (hp : 12 ≤ p) (after : Bool) :
    (run (Cic.step 4096) c v (4096 * p + after.toNat)).d_out = x (stepRead p after) := by
  cases after with
  | true => exact hx p (by omega)
  | false =>
      obtain ⟨q, rfl⟩ := Nat.exists_eq_add_of_le' (show 1 ≤ p by omega)
      -- the output before the edge is still that of the last step
      exact (Cic.d_out_until hc v q).trans (hx q (by omega))

include hi hq in
theorem found_eq_pairRead {p : ℕ} (hp : 12 ≤ p) : found s u (4096 * p) = pairRead s u p := by
  have hI := d_out_stepRead hi (fun k => (run step s u k).sinPorts)
    (fun q hq' => d_out_eq_response hi (run_MixerOutSin s u) hq') hp (u (4096 * p)).iAfter
  have hQ := d_out_stepRead hq (fun k => (run step s u k).cosPorts)
    (fun q hq' => d_out_eq_response hq (run_MixerOutCos s u) hq') hp (u (4096 * p)).qAfter
  rw [← run_CIC1Sin] at hI
  rw [← run_CIC1Cos] at hQ
  exact congrArg₂ IQ.mk hI hQ

end Delivery

/-! ### The result -/

/-- **From the antenna to the audio pin.** From power-up, whatever the registers of the data path
hold then and whatever the commands, the antenna and the races at the demodulator do: from the
twelfth step on, during the step that comes `L + 3` steps later, the demodulator shows the magnitude
of the pair that it read at the edge of the step, each of the two of this step or of the one before,
and both of the same step if it read both filters on the same side of the edge. The outputs of a
step are windows of the responses to the bits of the antenna times the oscillator, with the gain of
that step. A period of the PWM that starts meanwhile is high for one clock more than the magnitude
and the offset make modulo `2 ^ 10`. -/
theorem lattice_receiver_end_to_end {L : ℕ} (hmult : mult.HasLatency L (signedProduct 12))
    (s : Top mult) (hi : s.CIC1Sin.PowerUp) (hq : s.CIC1Cos.PowerUp) (u : ℕ → Ports) {p : ℕ}
    (hp : 12 ≤ p) {t : ℕ} (hlow : 4096 * (p + L + 3) < t) (hhigh : t ≤ 4096 * (p + L + 4)) :
    let iq := pairRead s u p
    ((u (4096 * p)).iAfter = (u (4096 * p)).qAfter →
        iq = decimated s u (stepRead p (u (4096 * p)).iAfter)) ∧
      (run step s u t).audio.AMDemodulator1.d_out.toNat = iq.magnitude ∧
      ((run step s u t).audio.PWM1.counter = 0 →
        Nat.count (fun k => (run step s u (t + k + 1)).audio.PWM1.PWMOut = true) 1024
          = (iq.magnitude + 512) % 1024 + 1) := by
  intro iq
  obtain ⟨q, rfl⟩ := Nat.exists_eq_add_of_le' (show 1 ≤ p by omega)
  have hlen : (events (fun k => (run step s u k).sample (u k)) t).length
      = (s.sample (u 0)).toList.length + q + L + 4 := by
    have h := samples_length hi u (t - 1)
    rw [show t - 1 + 1 = t by omega, show (t - 1) / 4096 = q + 1 + L + 3 by omega] at h
    omega
  have hsample := samples_getElem hi u (p := q) (n := t) (by omega)
  rw [found_eq_pairRead hi hq u hp] at hsample
  refine ⟨?_, ?_, ?_⟩
  · intro hsame
    show pairRead s u (q + 1) = _
    rw [pairRead, ← hsame]
  · rw [run_audio]
    exact AudioPath.run_d_out hmult s.audio _ hlen hsample
  · intro h0
    rw [run_audio] at h0
    let P : AudioPath.Period mult L iq :=
      { start := s.audio
        samples := fun k => (run step s u k).sample (u k)
        edge := t
        index := (s.sample (u 0)).toList.length + q
        begins := h0
        length_eq := hlen
        sample_eq := hsample }
    have hduty := P.high_eq hmult
    unfold AudioPath.Period.high at hduty
    simp only [run_audio]
    exact hduty

/-- Cleared registers, after multipliers of two clocks. -/
def poweredUp : Top (pipeline 1 (signedProduct 12)) where
  commands := CommandPath.poweredUp
  oscillator := LocalOscillator.cleared
  Mixer1 := { RFInR1 := true, RFInR := true, MixerOutSin := 0, MixerOutCos := 0 }
  CIC1Sin := clearedCic
  CIC1Cos := clearedCic
  audio := AudioPath.cleared 0

/-- An idle serial line and a square wave at the antenna. -/
def squareWave (n : ℕ) : Ports where
  i_Rx_Serial := true
  RFIn := decide (n % 64 < 32)
  iAfter := false
  qAfter := false

/-- The period that starts with edge 73728 belongs to step 11. -/
theorem lattice_receiver_end_to_end_square :
    Nat.count (fun k => (run step poweredUp squareWave (73728 + k + 1)).audio.PWM1.PWMOut = true)
      1024 = ((decimated poweredUp squareWave 11).magnitude + 512) % 1024 + 1 := by
  have h0 : (run step poweredUp squareWave 73728).audio.PWM1.counter = 0 := by
    rw [run_audio, AudioPath.run_PWM1, PWM.run_counter]
    decide
  have h := lattice_receiver_end_to_end (pipeline_hasLatency 1 _) poweredUp ⟨rfl, rfl⟩ ⟨rfl, rfl⟩
    squareWave (le_refl 12) (t := 73728) (by decide) (by decide)
  obtain ⟨hsame, -, hperiod⟩ := h
  have hstep : stepRead 12 (squareWave (4096 * 12)).iAfter = 11 := rfl
  rw [hstep] at hsame
  rw [← hsame rfl]
  exact hperiod h0

end Top

end OneBitSDR
