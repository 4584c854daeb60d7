import OneBitSDR.Cyclone.AmReceiver

set_option autoImplicit false

/-! # The receiver of `sdr.sv` end to end

`am_receiver` with 16-bit samples, five CIC stages and decimation by 4096, after a reset and with
input bits `1` and `-1`. Time is counted from the first edge on which the modules are out of
their registered reset.

One decimation step goes through all six modules: the mixer keeps the low halves of products that
fit, the filters give exact responses, their outputs stay put for the clock by which the valid bit
overtakes the data in the demodulator, and the root comes out ten clocks after the valid bit went
in.
-/

namespace OneBitSDR

open Clocked Signal

/-- The instance of `am_receiver` in `sdr.sv`. -/
abbrev sdrReceiver : ReceiverParams where
  WIDTH := 16
  CIC_DECIMATION := 4096
  CIC_STAGES := 5
  stages_pos := by decide
  decimation_two := by decide

namespace AmReceiver

variable {lpm_mult : LpmMult 16} {altsqrt : AltSqrt 16}

/-! ## The state a reset leaves -/

/-- The modules have just been reset, and no valid bit is under way in the demodulator. -/
structure OutOfReset (s : AmReceiver sdrReceiver lpm_mult altsqrt) : Prop where
  released : s.clock_sreset_reg = false
  i_count : s.i_cic.decimation_count = 0
  i_comb : s.i_cic.comb_enable = false
  i_valid : s.i_cic.data_out_valid = false
  q_count : s.q_cic.decimation_count = 0
  q_comb : s.q_cic.comb_enable = false
  table : s.nco.lut.FromTable quarterWave
  drained : s.demod.demod_valid_pipe = 0

/-- The edge that releases the reset: the modules still see its registered copy. -/
theorem outOfReset_release {s : AmReceiver sdrReceiver lpm_mult altsqrt}
    {r : AmReceiverIn sdrReceiver} (hs : s.clock_sreset_reg = true)
    (hp : s.demod.demod_valid_pipe = 0) (hr : r.clock_sreset = false) :
    OutOfReset (s.step r) where
  released := hr
  i_count := by simp [step, iPorts, CicFilter.step, hs]
  i_comb := by simp [step, iPorts, CicFilter.step, hs]
  i_valid := by simp [step, iPorts, CicFilter.step, hs]
  q_count := by simp [step, qPorts, CicFilter.step, hs]
  q_comb := by simp [step, qPorts, CicFilter.step, hs]
  table := by
    simp only [step, Nco.step, hs]
    exact SineCosine.fromTable_reset _ _
  drained := by simp [step, demodPorts, AmDemod.step, hs, hp]

/-! ## The modules inside a run -/

section Modules

variable {s : AmReceiver sdrReceiver lpm_mult altsqrt} {u : ℕ → AmReceiverIn sdrReceiver}

theorem run_released (hs : OutOfReset s) (hu : ∀ n, (u n).clock_sreset = false) (n : ℕ) :
    (run step s u n).clock_sreset_reg = false := by
  cases n with
  | zero => exact hs.released
  | succ n => exact hu n

theorem iPorts_running (hs : OutOfReset s) (hu : ∀ n, (u n).clock_sreset = false) :
    CicFilter.Running (fun k => (run step s u k).iPorts (u k)) := run_released hs hu

theorem qPorts_running (hs : OutOfReset s) (hu : ∀ n, (u n).clock_sreset = false) :
    CicFilter.Running (fun k => (run step s u k).qPorts (u k)) := run_released hs hu

theorem run_table (hs : OutOfReset s) (n : ℕ) :
    (run step s u n).nco.lut.FromTable quarterWave := by
  refine run_invariant (fun _ (t : AmReceiver sdrReceiver lpm_mult altsqrt) =>
    t.nco.lut.FromTable quarterWave) hs.table ?_ n
  intro k t ht
  exact SineCosine.fromTable_step ht _ _

/-- Both filters execute their combs every 4096 clocks. -/
theorem run_comb_enable (hs : OutOfReset s) (hu : ∀ n, (u n).clock_sreset = false) (n : ℕ) :
    (run step s u n).i_cic.comb_enable = decide (0 < n ∧ 4096 ∣ n)
      ∧ (run step s u n).q_cic.comb_enable = decide (0 < n ∧ 4096 ∣ n) := by
  rw [run_i_cic, run_q_cic]
  exact ⟨CicFilter.comb_enable_of_valid hs.i_count hs.i_comb (iPorts_running hs hu)
      (fun _ => rfl) n,
    CicFilter.comb_enable_of_valid hs.q_count hs.q_comb (qPorts_running hs hu) (fun _ => rfl) n⟩

/-- The valid bit of the I filter, one clock after its comb edge. -/
theorem run_i_valid (hs : OutOfReset s) (hu : ∀ n, (u n).clock_sreset = false) (n : ℕ) :
    (run step s u (n + 1)).i_cic.data_out_valid = decide (0 < n ∧ 4096 ∣ n) := by
  rw [← (run_comb_enable hs hu n).1, run_succ]
  exact CicFilter.step_data_out_valid (run_released hs hu n)

/-! ## The mixer loses nothing -/

/-- A sample times `1` or `-1` fits the low half of the product. -/
theorem toInt_lowHalf {d x : BitVec 16} (hd : d = 1 ∨ d = -1) (hx : Negatable x) :
    ((signedProduct 16 (d, x)).setWidth 16).toInt = d.toInt * x.toInt := by
  have hl : -0x7fff ≤ x.toInt := hx
  have hu := BitVec.two_mul_toInt_lt (x := x)
  show ((BitVec.ofInt 32 (d.toInt * x.toInt)).setWidth 16).toInt = d.toInt * x.toInt
  rw [setWidth_ofInt (by decide)]
  rcases hd with rfl | rfl
  · rw [show (1 : BitVec 16).toInt = 1 from rfl]
    exact toInt_ofInt_of_fits (by omega) (by omega)
  · rw [show (-1 : BitVec 16).toInt = -1 from rfl]
    exact toInt_ofInt_of_fits (by omega) (by omega)

/-- The exact product stream of the I path. -/
def iProduct (s : AmReceiver sdrReceiver lpm_mult altsqrt) (u : ℕ → AmReceiverIn sdrReceiver)
    (n : ℕ) : ℤ :=
  (u n).data_in.toInt * ((run step s u n).nco.sine_out 16).toInt

/-- The exact product stream of the Q path. -/
def qProduct (s : AmReceiver sdrReceiver lpm_mult altsqrt) (u : ℕ → AmReceiverIn sdrReceiver)
    (n : ℕ) : ℤ :=
  (u n).data_in.toInt * ((run step s u n).nco.cosine_out 16).toInt

/-- A multiplier of the mixer, fed by the output `osc` of the oscillator. -/
theorem run_mult (hmult : lpm_mult.HasLatency 2 (signedProduct 16))
    (hd : ∀ n, (u n).data_in = (1 : BitVec 16) ∨ (u n).data_in = (-1 : BitVec 16))
    (mult : AmReceiver sdrReceiver lpm_mult altsqrt → lpm_mult.State)
    (osc : AmReceiver sdrReceiver lpm_mult altsqrt → BitVec 16)
    (hstep : ∀ t v, mult (step t v) = lpm_mult.step (mult t) (v.data_in, osc t)) (n : ℕ)
    (hosc : Negatable (osc (run step s u n))) :
    ((lpm_mult.out (mult (run step s u (n + 2)))).setWidth 16).toInt
      = (u n).data_in.toInt * (osc (run step s u n)).toInt := by
  have hout : lpm_mult.out (mult (run step s u (n + 2)))
      = signedProduct 16 ((u n).data_in, osc (run step s u n)) := by
    rw [run_proj mult (fun t v => (v.data_in, osc t)) hstep]
    exact hmult _ _ n
  rw [hout]
  exact toInt_lowHalf (hd n) hosc

theorem run_mixer_sine (hmult : lpm_mult.HasLatency 2 (signedProduct 16)) (hs : OutOfReset s)
    (hd : ∀ n, (u n).data_in = (1 : BitVec 16) ∨ (u n).data_in = (-1 : BitVec 16)) (n : ℕ) :
    (run step s u (n + 2)).mixer.sine_out.toInt = iProduct s u n := by
  refine run_mult hmult hd (fun t => t.mixer.mult_sine) (fun t => t.nco.sine_out 16)
    (fun _ _ => rfl) n ?_
  rw [Nco.sine_out, Nat.sub_self, BitVec.extractLsb'_eq_self]
  exact (run_table hs n).sine

theorem run_mixer_cosine (hmult : lpm_mult.HasLatency 2 (signedProduct 16)) (hs : OutOfReset s)
    (hd : ∀ n, (u n).data_in = (1 : BitVec 16) ∨ (u n).data_in = (-1 : BitVec 16)) (n : ℕ) :
    (run step s u (n + 2)).mixer.cosine_out.toInt = qProduct s u n := by
  refine run_mult hmult hd (fun t => t.mixer.mult_cosine) (fun t => t.nco.cosine_out 16)
    (fun _ _ => rfl) n ?_
  rw [Nco.cosine_out, Nat.sub_self, BitVec.extractLsb'_eq_self]
  exact (run_table hs n).cosine

/-! ## One decimation step through the receiver -/

/-- The sample a CIC filter of the receiver has on its output for decimation step `p`: the
exact response to the products `x`, scaled by the gain, in 16 bits. The newest product it
contains is the one of cycle `(p - 5) * 4096 - 7`. -/
noncomputable def cicSample (x : ℕ → ℤ) (cic_gain : BitVec 4) (p : ℕ) : BitVec 16 :=
  BitVec.ofInt 16 (windowResponse 4096 5 x ((p - 5) * 4096 - 7) / 2 ^ (60 - cic_gain.toNat))

theorem sdrReceiver_WIDTHO : sdrReceiver.cic.WIDTHO = 76 := by decide

/-- A filter of the receiver, out of reset and fed products two clocks late, holds the sample of
decimation step `p` on the clock of the comb edge of that step. -/
theorem cic_data_out {f : CicFilter sdrReceiver.cic} {v : ℕ → CicIn sdrReceiver.cic} {x : ℕ → ℤ}
    {g : BitVec 4} (h1 : f.decimation_count = 0) (h2 : f.comb_enable = false)
    (hv : CicFilter.Running v) (hvalid : ∀ n, (v n).data_in_valid = true)
    (hx : ∀ n, (v (n + 2)).data_in.toInt = x n) (p : ℕ) (hp : 11 ≤ p)
    (hg : (v (4096 * p - 1)).gain = g) :
    (run CicFilter.step f v (4096 * p)).data_out = cicSample x g p := by
  -- the comb edge of step `p - 1` is the last one before edge `4096 p - 1`
  have hpulses := CicFilter.pulses_length h1 h2 hv (4096 * p - 2)
  rw [CicFilter.accepted_length_of_valid hvalid, show sdrReceiver.cic.DECIMATION = 4096 from rfl,
    show 4096 * p - 2 + 1 = 4096 * p - 1 by omega,
    show (4096 * p - 2) / 4096 = (p - 11) + 10 by omega] at hpulses
  have hlists : CicFilter.Lists (fun k => (v k).data_in) v (4096 * p) := by
    intro k _ _
    rw [CicFilter.accepted_length_of_valid hvalid]
  have hgain : (v (4096 * p - 1)).gain.toNat ≤ sdrReceiver.cic.WIDTHO - sdrReceiver.cic.WIDTHR := by
    have := (v (4096 * p - 1)).gain.isLt
    rw [sdrReceiver_WIDTHO, show sdrReceiver.cic.WIDTHR = 16 from rfl]
    omega
  have hout := CicFilter.data_out_response h1 h2 hv hlists (4096 * p - 1) (by omega) (p - 11)
    hpulses
  rw [show 4096 * p - 1 + 1 = 4096 * p by omega, CicParams.shiftAmount_of_le hgain, hg,
    sdrReceiver_WIDTHO] at hout
  have hsame : windowResponse 4096 5 (fun k => (v k).data_in.toInt)
      ((p - 11) * 4096 + 4096 + 5 * (4096 - 1)) = windowResponse 4096 5 x ((p - 5) * 4096 - 7) := by
    apply windowResponse_congr
    intro j hj
    rw [← hx]
    congr 3
    omega
  refine hout.trans ?_
  show BitVec.ofInt 16 (windowResponse 4096 5 (fun k => (v k).data_in.toInt)
    ((p - 11) * 4096 + 4096 + 5 * (4096 - 1)) / 2 ^ (76 - 16 - g.toNat)) = cicSample x g p
  rw [hsame, cicSample]

theorem demodPorts_released (hs : OutOfReset s) (hu : ∀ n, (u n).clock_sreset = false) (n : ℕ) :
    ((run step s u n).demodPorts (u n)).clock_sreset = false := run_released hs hu n

/-- The pulses of `demodulated_valid`: one for each decimation step, raised ten edges after the
comb edge of the step. -/
theorem run_demodulated_valid (hs : OutOfReset s) (hu : ∀ n, (u n).clock_sreset = false) (n : ℕ) :
    (run step s u (n + 1)).demodulated_valid = decide (10 < n ∧ 4096 ∣ n - 10) := by
  show (run step s u (n + 1)).demod.demod_valid = _
  rw [run_demod]
  rcases Nat.lt_or_ge n 9 with hn | hn
  · -- the flops of the valid bit are still draining
    rw [AmDemod.demod_valid_drained hs.drained (demodPorts_released hs hu) n (by omega), eq_comm,
      decide_eq_false_iff_not]
    omega
  · rcases Nat.exists_eq_add_of_le' hn with ⟨m, rfl⟩
    rw [show m + 9 + 1 = m + 10 by omega,
      AmDemod.demod_valid_latency m (fun j _ => demodPorts_released hs hu (m + j))]
    show (run step s u m).i_cic.data_out_valid = _
    cases m with
    | zero => exact hs.i_valid
    | succ m =>
        rw [run_i_valid hs hu, decide_eq_decide, show m + 1 + 9 - 10 = m by omega]
        omega

/-- The sample on the pulse of decimation step `p`. -/
theorem run_demodulated_out (hmult : lpm_mult.HasLatency 2 (signedProduct 16))
    (hsqrt : altsqrt.HasLatency 8 (floorSqrt 16)) (hs : OutOfReset s)
    (hu : ∀ n, (u n).clock_sreset = false) {cic_gain : BitVec 4}
    (hg : ∀ n, (u n).cic_gain = cic_gain)
    (hd : ∀ n, (u n).data_in = (1 : BitVec 16) ∨ (u n).data_in = (-1 : BitVec 16)) (p : ℕ)
    (hp : 11 ≤ p) :
    (run step s u (4096 * p + 11)).demodulated_out.toNat
      = AmDemod.magnitude (cicSample (iProduct s u) cic_gain p)
          (cicSample (qProduct s u) cic_gain p) := by
  have hi : (run step s u (4096 * p)).i_cic.data_out = cicSample (iProduct s u) cic_gain p := by
    rw [run_i_cic]
    exact cic_data_out hs.i_count hs.i_comb (iPorts_running hs hu) (fun _ => rfl)
      (run_mixer_sine hmult hs hd) p hp (hg _)
  have hq : (run step s u (4096 * p)).q_cic.data_out = cicSample (qProduct s u) cic_gain p := by
    rw [run_q_cic]
    exact cic_data_out hs.q_count hs.q_comb (qPorts_running hs hu) (fun _ => rfl)
      (run_mixer_cosine hmult hs hd) p hp (hg _)
  have hdemod := AmDemod.demod_latency (s := s.demod)
    (u := fun k => (run step s u k).demodPorts (u k)) hmult hsqrt (4096 * p)
    (demodPorts_released hs hu _)
  rw [← run_demod (s := s) (u := u)] at hdemod
  rw [← hi, ← hq]
  exact hdemod

end Modules

/-- **The receiver end to end.** The state `s` is inside a reset that has reached the modules,
with no valid bit under way in the demodulator; `r` is the edge that releases it. For input bits
`1` and `-1`, every sequence of phase increments and every constant gain: both filters execute
their combs on the edges `4096 p` with `p ≥ 1` (the decimation steps), edge `4096 p + 10` raises
`demodulated_valid`, no other edge does, and from step 11 on `demodulated_out` on that pulse is
the magnitude of the I and Q samples of step `p`, each the 16-bit value of the scaled exact
response to the exact products. -/
theorem am_receiver_end_to_end (hmult : lpm_mult.HasLatency 2 (signedProduct 16))
    (hsqrt : altsqrt.HasLatency 8 (floorSqrt 16))
    (s : AmReceiver sdrReceiver lpm_mult altsqrt) (hs : s.clock_sreset_reg = true)
    (hpipe : s.demod.demod_valid_pipe = 0) (r : AmReceiverIn sdrReceiver)
    (hr : r.clock_sreset = false) (u : ℕ → AmReceiverIn sdrReceiver)
    (hu : ∀ n, (u n).clock_sreset = false) (cic_gain : BitVec 4)
    (hg : ∀ n, (u n).cic_gain = cic_gain)
    (hd : ∀ n, (u n).data_in = (1 : BitVec 16) ∨ (u n).data_in = (-1 : BitVec 16)) :
    (∀ n, ((run step (s.step r) u n).i_cic.comb_enable = true ↔ ∃ p ≥ 1, n = 4096 * p)
      ∧ ((run step (s.step r) u n).q_cic.comb_enable = true ↔ ∃ p ≥ 1, n = 4096 * p)) ∧
    (∀ n, (run step (s.step r) u (n + 1)).demodulated_valid = true
      ↔ ∃ p ≥ 1, n = 4096 * p + 10) ∧
    ∀ p ≥ 11, (run step (s.step r) u (4096 * p + 11)).demodulated_out.toNat
      = AmDemod.magnitude (cicSample (iProduct (s.step r) u) cic_gain p)
          (cicSample (qProduct (s.step r) u) cic_gain p) := by
  have hreset := outOfReset_release hs hpipe hr
  refine ⟨?_, ?_, fun p hp => run_demodulated_out hmult hsqrt hreset hu hg hd p hp⟩
  · intro n
    have hstep : (0 < n ∧ 4096 ∣ n) ↔ ∃ p ≥ 1, n = 4096 * p :=
      ⟨fun ⟨hn, p, hp⟩ => ⟨p, by omega, hp⟩, fun ⟨p, hp, hn⟩ => ⟨by omega, p, hn⟩⟩
    rw [(run_comb_enable hreset hu n).1, (run_comb_enable hreset hu n).2, decide_eq_true_eq]
    exact ⟨hstep, hstep⟩
  · intro n
    rw [run_demodulated_valid hreset hu, decide_eq_true_eq]
    exact ⟨fun ⟨hn, p, hp⟩ => ⟨p, by omega, by omega⟩, fun ⟨p, hp, hn⟩ => ⟨by omega, p, by omega⟩⟩

/-! ### Tuned to zero, with a constant input -/

def clearedCic : CicFilter sdrReceiver.cic where
  idata_reg _ := 0
  cdata_reg _ _ := 0
  sub_node _ := 0
  decimation_count := 0
  comb_enable := false
  data_out_valid := false
  data_out := 0

def heldInReset : AmReceiver sdrReceiver (pipeline 1 (signedProduct 16)) (pipeline 7 (floorSqrt 16))
    where
  clock_sreset_reg := true
  nco := { phase_accumulator := 0, lut := ⟨0, 0, 0, 0, 0, 0, 0, 0, 0⟩ }
  mixer := { mult_sine := fun _ => 0, mult_cosine := fun _ => 0 }
  i_cic := clearedCic
  q_cic := clearedCic
  demod := AmDemod.cleared

def constantInput : AmReceiverIn sdrReceiver where
  clock_sreset := false
  phase_increment := 0
  cic_gain := 4
  data_in := (1 : BitVec 16)
  i_dontcare := clearedCic
  q_dontcare := clearedCic
  sum_dontcare := (0 : BitVec 33)

theorem am_receiver_end_to_end_constant :
    (run step (heldInReset.step constantInput) (fun _ => constantInput)
        (4096 * 11 + 11)).demodulated_out.toNat
      = AmDemod.magnitude
          (cicSample (iProduct (heldInReset.step constantInput) (fun _ => constantInput)) 4 11)
          (cicSample (qProduct (heldInReset.step constantInput) (fun _ => constantInput)) 4 11) :=
  (am_receiver_end_to_end (pipeline_hasLatency 1 _) (pipeline_hasLatency 7 _) heldInReset rfl rfl
    constantInput rfl (fun _ => constantInput) (fun _ => rfl) 4 (fun _ => rfl)
    (fun _ => Or.inl rfl)).2.2 11 (le_refl 11)

end AmReceiver

end OneBitSDR
