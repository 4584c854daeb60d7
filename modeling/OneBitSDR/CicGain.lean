import OneBitSDR.CicEquivalence

set_option autoImplicit false

/-! # The gain of the two CIC filters

`cic_filter` and `CIC` have no limiter. Their gain moves the window of output bits down over the
exact response, and the bits above the window are dropped: the output is the shifted response
when that is in the range of the output word, and its residue otherwise. Without gain the window
is the top of the word and nothing is above it.
-/

namespace OneBitSDR

open Clocked Signal

/-! ## A window of the response -/

/-- What an output of `v` bits shows of the exact response `Y` shifted down by `k` bits. -/
structure ShowsWindow {v : ℕ} (out : BitVec v) (Y : ℤ) (k : ℕ) : Prop where
  residue : out.toInt = Int.bmod (Y / 2 ^ k) (2 ^ v)
  exact_iff : out.toInt = Y / 2 ^ k ↔ Fits v (Y / 2 ^ k)
  sign : Fits v (Y / 2 ^ k) → (out.toInt < 0 ↔ Y < 0)

theorem showsWindow_ofInt (v : ℕ) (Y : ℤ) (k : ℕ) :
    ShowsWindow (BitVec.ofInt v (Y / 2 ^ k)) Y k where
  residue := BitVec.toInt_ofInt _
  exact_iff := toInt_ofInt_eq_iff
  sign := by
    intro h
    have hpos : (0 : ℤ) < 2 ^ k := by positivity
    rw [toInt_ofInt_eq_iff.mpr h, Int.ediv_lt_iff_lt_mul hpos, zero_mul]

/-! ## The output of `CIC` -/

namespace Cic

variable {R : ℕ}

/-- The output after comb edge `p`, once the filter is flushed: a window of the response. -/
theorem d_out_response {width : ℕ} (hR : 2 ≤ R) (hR' : R ≤ 65536)
    (hw : width = 12 + 5 * Nat.clog 2 R) {s₀ : Cic width} {u : ℕ → CicPort} (h1 : s₀.count = 0)
    (h2 : s₀.v_comb = false) {n p : ℕ} (hv : (run (step R) s₀ u n).v_comb = true)
    (hp : (outputs R s₀ u (n + 1)).length = p) (hflush : 11 ≤ p) :
    (run (step R) s₀ u (n + 1)).d_out
      = BitVec.ofInt 12 (windowResponse R 5 (fun k => (u k).d_in.toInt) ((p - 5) * R - 6)
        / 2 ^ shiftAmount width (u n).Gain) := by
  obtain ⟨q, rfl⟩ := Nat.exists_eq_add_of_le' hflush
  have hlen : (outputs R s₀ u n).length = q + 5 * (1 + 1) := by
    have hsucc := outputs_succ (R := R) s₀ u n
    rw [hp, hv, if_pos rfl] at hsucc
    omega
  -- the newest sample is the one read a clock before the terminal count
  have hnewest : q * R + (R - 1) + 5 * (R * 1 - 1) = (q + 11 - 5) * R - 6 := by
    rw [show q + 11 - 5 = q + 6 by omega, show (q + 6) * R = q * R + 6 * R by ring]
    omega
  have hd10 : (run (step R) s₀ u n).d10
      = BitVec.ofInt width (windowResponse R 5 (fun k => (u k).d_in.toInt)
        ((q + 11 - 5) * R - 6)) := by
    have hnode := cascade_response_ofInt (W := width) (by decide : 0 < 5) Nat.one_pos R (R - 1)
      (by omega) s₀.idata s₀.combs (fun k => (u k).d_in) q
    rw [hnewest, Nat.mul_one] at hnode
    rw [run_d10 hR hR' h1 h2, hlen]
    exact hnode
  obtain ⟨hl, hh⟩ := windowResponse_fits (S := 5) (show 1 ≤ R by omega) (fun k => (u k).d_in)
    ((q + 11 - 5) * R - 6)
  rw [← hw] at hl hh
  rw [run_succ, step_d_out hv, hd10, setWidth_sshiftRight_ofInt (by omega) hl hh]

end Cic

/-! ## The result -/

/-- **Gain selects a window and limits nothing.** For both filters, from any contents of the data
registers, every input stream and every gain: once the filter is flushed the output is the exact
response shifted down, reduced to the output word. It is the shifted response itself, with the
sign of the response, exactly when that fits, and without gain it always does. The shift amount
is the difference of the widths and the gain as long as the gain keeps the window inside the
word. -/
theorem cic_gain_window :
    (∀ (P : CicParams) (s : CicFilter P) (r : CicIn P) (u : ℕ → CicIn P) (n p : ℕ),
      1 ≤ P.WIDTHR → r.clock_sreset = true → CicFilter.Running u →
      (run CicFilter.step (s.step r) u (n + 1)).data_out_valid = true →
      (CicFilter.pulses (s.step r) u (n + 1)).length = p → P.STAGES * (P.DDELAY + 1) + 1 ≤ p →
      let Y := windowResponse (P.DECIMATION * P.DDELAY) P.STAGES
        (CicFilter.sample (CicFilter.accepted u n)) ((p - P.STAGES) * P.DECIMATION - (P.STAGES - 1))
      let k := P.shiftAmount (u n).gain
      ShowsWindow (run CicFilter.step (s.step r) u (n + 1)).data_out Y k ∧
        ((u n).gain = 0 → Fits P.WIDTHR (Y / 2 ^ k)) ∧
        ((u n).gain.toNat ≤ P.WIDTHO - P.WIDTHR →
          k = P.WIDTHO - P.WIDTHR - (u n).gain.toNat)) ∧
    (∀ (R width : ℕ) (s : Cic width) (u : ℕ → CicPort) (n p : ℕ),
      2 ≤ R → R ≤ 65536 → width = 12 + 5 * Nat.clog 2 R → s.count = 0 → s.v_comb = false →
      (run (Cic.step R) s u n).v_comb = true → (Cic.outputs R s u (n + 1)).length = p → 11 ≤ p →
      let Y := windowResponse R 5 (fun k => (u k).d_in.toInt) ((p - 5) * R - 6)
      let k := Cic.shiftAmount width (u n).Gain
      ShowsWindow (run (Cic.step R) s u (n + 1)).d_out Y k ∧
        ((u n).Gain = 0 → Fits 12 (Y / 2 ^ k)) ∧
        (12 + (u n).Gain.toNat ≤ width → k = width - 12 - (u n).Gain.toNat)) := by
  constructor
  · intro P s r u n p hwidthr hr hu hv hp hflush Y k
    have h1 : (s.step r).decimation_count = 0 := by simp [CicFilter.step, hr]
    have h2 : (s.step r).comb_enable = false := by simp [CicFilter.step, hr]
    refine ⟨?_, ?_, CicParams.shiftAmount_of_le⟩
    · rw [CicFilter.data_out_pulse h1 h2 hu hv hp hflush]
      exact showsWindow_ofInt _ _ _
    · intro hgain
      have hk : k = P.WIDTHO - P.WIDTHR := by simp [k, CicParams.shiftAmount, hgain]
      rw [hk]
      refine Fits.div hwidthr P.widthr_le_widtho ?_
      exact windowResponse_fits P.window_pos
        (fun k => (CicFilter.accepted u n).getD (k - 1) 0) _
  · intro R width s u n p hR hR' hw h1 h2 hv hp hflush Y k
    refine ⟨?_, ?_, Cic.shiftAmount_of_le⟩
    · rw [Cic.d_out_response hR hR' hw h1 h2 hv hp hflush]
      exact showsWindow_ofInt _ _ _
    · intro hgain
      have hwide : 12 ≤ width := by omega
      have hk : k = width - 12 := by simp [k, Cic.shiftAmount, hgain, hwide]
      rw [hk]
      refine Fits.div (by omega) (by omega) ?_
      rw [hw]
      exact windowResponse_fits (by omega) (fun k => (u k).d_in) _

/-! ### Constant inputs at the rates of the receivers

Both filters decimate by 4096 in five stages: the eleventh output comes after 45056 samples, and
the exact response to the constant `c` is `2^60 * c`. -/

/-- `cic_filter` with its default parameters, as the receiver uses it. -/
abbrev receiverCic : CicParams where
  WIDTH := 16
  STAGES := 5
  DDELAY := 1
  DECIMATION := 4096
  WIDTHR := 16
  stages_pos := Nat.succ_pos 4
  ddelay_pos := Nat.one_pos
  decimation_two := Nat.le_add_left 2 4094
  widthr_le := Nat.le_refl 16

theorem receiverCic_WIDTHO : receiverCic.WIDTHO = 76 := by
  show 16 + 5 * Nat.clog 2 (4096 * 1) = 76
  norm_num

/-- All registers of `cic_filter` cleared. -/
def clearedFilter : CicFilter receiverCic where
  idata_reg _ := 0
  cdata_reg _ _ := 0
  sub_node _ := 0
  decimation_count := 0
  comb_enable := false
  data_out_valid := false
  data_out := 0

/-- The sample `c` on every clock. -/
def constantIn (clock_sreset : Bool) (gain : BitVec 4) (c : BitVec 16) : CicIn receiverCic where
  clock_sreset := clock_sreset
  gain := gain
  data_in_valid := true
  data_in := c
  dontcare := clearedFilter

/-- All registers of `CIC` cleared. -/
def clearedCic : Cic 72 where
  d_tmp := 0
  d_d_tmp := 0
  d1 := 0
  d2 := 0
  d3 := 0
  d4 := 0
  d5 := 0
  d6 := 0
  d_d6 := 0
  d7 := 0
  d_d7 := 0
  d8 := 0
  d_d8 := 0
  d9 := 0
  d_d9 := 0
  d10 := 0
  d_scaled := 0
  count := 0
  v_comb := false
  d_clk_tmp := false
  d_out := 0
  d_clk := false

section Constant

variable (gain : BitVec 4) (c : BitVec 16)

/-- The reset before the constant. -/
def startFilter : CicFilter receiverCic := clearedFilter.step (constantIn true 0 0)

theorem accepted_constant (n : ℕ) :
    CicFilter.accepted (fun _ => constantIn false gain c) n = List.replicate n c := by
  induction n with
  | zero => rfl
  | succ n ih =>
      rw [CicFilter.accepted_succ_valid rfl, ih, List.replicate_succ']
      rfl

/-- The response to the constant on the eleventh pulse. -/
theorem response_constant :
    windowResponse (4096 * 1) 5
        (CicFilter.sample (CicFilter.accepted (fun _ => constantIn false gain c) 45056))
        ((11 - 5) * 4096 - (5 - 1))
      = 2 ^ 60 * c.toInt := by
  rw [windowResponse_congr (y := fun _ => c.toInt) (m := 0), windowResponse_const (by omega)]
  · norm_num
  · intro j hj
    -- the window lies inside the list of accepted samples
    have hmem : (List.replicate 45056 c).getD ((11 - 5) * 4096 - (5 - 1) - j - 1) 0 = c := by
      rw [List.getD_eq_getElem?_getD, List.getElem?_replicate_of_lt (by omega)]
      rfl
    rw [CicFilter.sample, accepted_constant]
    exact congrArg BitVec.toInt hmem

theorem valid_constant :
    (run CicFilter.step startFilter (fun _ => constantIn false gain c) 45057).data_out_valid
      = true := by
  rw [run_succ, CicFilter.step_data_out_valid rfl,
    CicFilter.comb_enable_of_valid rfl rfl (fun _ => rfl) (fun _ => rfl)]
  decide

theorem pulses_constant :
    (CicFilter.pulses startFilter (fun _ => constantIn false gain c) 45057).length = 11 := by
  rw [CicFilter.pulses_length rfl rfl (fun _ => rfl),
    CicFilter.accepted_length_of_valid (fun _ => rfl)]
  rfl

theorem data_out_constant :
    (run CicFilter.step startFilter (fun _ => constantIn false gain c) 45057).data_out
      = BitVec.ofInt 16 (2 ^ 60 * c.toInt / 2 ^ (60 - gain.toNat)) := by
  have hgain := gain.isLt
  have h := @CicFilter.data_out_pulse receiverCic startFilter _ rfl rfl (fun _ => rfl) _ _
    (valid_constant gain c) (pulses_constant gain c) (by decide)
  have hshift : receiverCic.shiftAmount (constantIn false gain c).gain = 60 - gain.toNat := by
    rw [CicParams.shiftAmount, receiverCic_WIDTHO]
    exact if_pos (show gain.toNat ≤ 60 by omega)
  rw [h, hshift]
  exact congrArg (fun Y => BitVec.ofInt 16 (Y / 2 ^ (60 - gain.toNat))) (response_constant gain c)

end Constant

/-- Full scale on every clock, for `CIC`. -/
def fullScale (Gain : BitVec 8) : CicPort where
  Gain := Gain
  d_in := 2047

theorem v_comb_fullScale (Gain : BitVec 8) :
    (run (Cic.step 4096) clearedCic (fun _ => fullScale Gain) 45056).v_comb = true := by
  rw [(Cic.inv_run (by omega) (by omega) rfl rfl 45056).comb]
  decide

theorem outputs_fullScale (Gain : BitVec 8) :
    (Cic.outputs 4096 clearedCic (fun _ => fullScale Gain) 45057).length = 11 := by
  rw [Cic.outputs_length (by omega) (by omega) rfl rfl]

theorem response_fullScale (Gain : BitVec 8) :
    windowResponse 4096 5 (fun _ => (fullScale Gain).d_in.toInt) ((11 - 5) * 4096 - 6)
      = 2 ^ 60 * 2047 := by
  rw [windowResponse_const (by omega), show (fullScale Gain).d_in.toInt = 2047 from rfl]
  norm_num

theorem d_out_fullScale {Gain : BitVec 8} (hg : Gain.toNat ≤ 3) :
    (run (Cic.step 4096) clearedCic (fun _ => fullScale Gain) 45057).d_out
      = BitVec.ofInt 12 (2 ^ 60 * 2047 / 2 ^ (60 - Gain.toNat)) := by
  rw [Cic.d_out_response (by omega) (by omega) (by norm_num) rfl rfl (v_comb_fullScale Gain)
    (outputs_fullScale Gain) (by omega), response_fullScale,
    show (fullScale Gain).Gain = Gain from rfl,
    Cic.shiftAmount_of_le (show 12 + Gain.toNat ≤ 72 by omega)]

/-- **Gain does turn the output over.** With gain 15 the constant 1 has a positive response and
the output -32768 of `cic_filter`; with gain 1 full scale has a positive response and the output
-2 of `CIC`. -/
theorem gain_turns_output_over :
    (0 < windowResponse (4096 * 1) 5
        (CicFilter.sample (CicFilter.accepted (fun _ => constantIn false 15 1) 45056))
        ((11 - 5) * 4096 - (5 - 1)) ∧
      (CicFilter.pulses startFilter (fun _ => constantIn false 15 1) 45057).length = 11 ∧
      (run CicFilter.step startFilter (fun _ => constantIn false 15 1) 45057).data_out_valid
        = true ∧
      (run CicFilter.step startFilter (fun _ => constantIn false 15 1) 45057).data_out.toInt
        = -32768) ∧
    (0 < windowResponse 4096 5 (fun _ => (fullScale 1).d_in.toInt) ((11 - 5) * 4096 - 6) ∧
      (Cic.outputs 4096 clearedCic (fun _ => fullScale 1) 45057).length = 11 ∧
      (run (Cic.step 4096) clearedCic (fun _ => fullScale 1) 45056).v_comb = true ∧
      (run (Cic.step 4096) clearedCic (fun _ => fullScale 1) 45057).d_out.toInt = -2) := by
  refine ⟨⟨?_, pulses_constant 15 1, valid_constant 15 1, ?_⟩, ?_, outputs_fullScale 1,
    v_comb_fullScale 1, ?_⟩
  · rw [response_constant]
    decide
  · rw [data_out_constant]
    decide
  · rw [response_fullScale]
    decide
  · rw [d_out_fullScale (by decide)]
    decide

/-- Without gain the constant 1 comes out as 1, and full scale as full scale. -/
theorem cic_gain_window_constant :
    (run CicFilter.step startFilter (fun _ => constantIn false 0 1) 45057).data_out.toInt = 1 ∧
      (run (Cic.step 4096) clearedCic (fun _ => fullScale 0) 45057).d_out.toInt = 2047 := by
  have hfilter := cic_gain_window.1 receiverCic clearedFilter (constantIn true 0 0)
    (fun _ => constantIn false 0 1) 45056 11 (by decide) rfl (fun _ => rfl) (valid_constant 0 1)
    (pulses_constant 0 1) (by decide)
  have hcic := cic_gain_window.2 4096 72 clearedCic (fun _ => fullScale 0) 45056 11 (by omega)
    (by omega) (by norm_num) rfl rfl (v_comb_fullScale 0) (outputs_fullScale 0) (by omega)
  have hvalue : (run CicFilter.step startFilter (fun _ => constantIn false 0 1) 45057).data_out.toInt
      = windowResponse (4096 * 1) 5
        (CicFilter.sample (CicFilter.accepted (fun _ => constantIn false 0 1) 45056))
        ((11 - 5) * 4096 - (5 - 1)) / 2 ^ receiverCic.shiftAmount 0 :=
    hfilter.1.exact_iff.mpr (hfilter.2.1 rfl)
  have hvalue' := hcic.1.exact_iff.mpr (hcic.2.1 rfl)
  constructor
  · rw [hvalue, CicParams.shiftAmount_of_le (Nat.zero_le _), receiverCic_WIDTHO, response_constant]
    decide
  · refine hvalue'.trans ?_
    rw [response_fullScale]
    decide

end OneBitSDR
