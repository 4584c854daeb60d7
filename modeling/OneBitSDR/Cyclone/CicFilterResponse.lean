import OneBitSDR.Cyclone.CicFilter

set_option autoImplicit false

/-! # The response of `cic_filter`

A run of `cic_filter` outside reset is described by two counts, the inputs accepted and the
pulses raised so far. In terms of them the integrators are a run of `Signal.integrate` over the
accepted inputs and the combs a run of `Signal.Combs.step` over every `DECIMATION`-th value of
the last integrator (`CicInv`), so the response law of the library applies.
-/

namespace OneBitSDR

open Clocked Signal

namespace CicFilter

variable {P : CicParams}

/-! ## Accepted inputs and raised pulses -/

/-- The inputs accepted on the first `n` edges. -/
def accepted (u : ℕ → CicIn P) (n : ℕ) : List (BitVec P.WIDTH) :=
  events (strobe (fun k => (u k).data_in_valid) (fun k => (u k).data_in)) n

/-- The outputs on the `data_out_valid` pulses that the first `n` edges raise. -/
def pulses (s : CicFilter P) (u : ℕ → CicIn P) (n : ℕ) : List (BitVec P.WIDTHR) :=
  events (strobe (fun k => (run step s u (k + 1)).data_out_valid)
    (fun k => (run step s u (k + 1)).data_out)) n

/-- Out of reset. -/
def Running (u : ℕ → CicIn P) : Prop := ∀ n, (u n).clock_sreset = false

section Counts

variable {s : CicFilter P} {u : ℕ → CicIn P} {n : ℕ}

theorem accepted_succ_valid (hv : (u n).data_in_valid = true) :
    accepted u (n + 1) = accepted u n ++ [(u n).data_in] :=
  events_succ_some (strobe_true hv)

theorem accepted_succ_stall (hv : (u n).data_in_valid = false) :
    accepted u (n + 1) = accepted u n :=
  events_succ_none (strobe_false hv)

/-- An edge raises a pulse exactly when it executes the comb section. -/
theorem pulses_succ (hu : Running u) :
    (pulses s u (n + 1)).length
      = (pulses s u n).length + if (run step s u n).comb_enable then 1 else 0 := by
  rw [pulses, events_strobe_length_succ, run_succ, step_data_out_valid (hu n)]
  rfl

/-- A stream of samples that lists the accepted inputs in order. -/
def Lists (b : ℕ → BitVec P.WIDTH) (u : ℕ → CicIn P) (N : ℕ) : Prop :=
  ∀ k < N, (u k).data_in_valid = true → b (accepted u k).length = (u k).data_in

/-- The accepted inputs of the first `N` edges, continued by zeros, list them. -/
theorem lists_accepted (u : ℕ → CicIn P) (N : ℕ) :
    Lists (fun k => (accepted u N).getD k 0) u N := by
  intro k hk hv
  have hsucc := accepted_succ_valid hv
  have hlen : (accepted u k).length < (accepted u (k + 1)).length := by
    rw [hsucc, List.length_append, List.length_singleton]
    omega
  have hget : (accepted u N).getD (accepted u k).length 0
      = (accepted u (k + 1)).getD (accepted u k).length 0 :=
    events_getD_of_le _ 0 (by omega) hlen
  show (accepted u N).getD (accepted u k).length 0 = (u k).data_in
  rw [hget, hsucc, List.getD_eq_getElem?_getD, List.getElem?_append_right (le_refl _), Nat.sub_self]
  rfl

/-- With `data_in_valid` high all the time every edge accepts an input. -/
theorem accepted_length_of_valid (hv : ∀ k, (u k).data_in_valid = true) (n : ℕ) :
    (accepted u n).length = n := by
  induction n with
  | zero => rfl
  | succ n ih => rw [accepted_succ_valid (hv n), List.length_append, ih, List.length_singleton]

end Counts

/-! ## The invariant -/

/-- What holds after `n` edges out of a reset, with `a` inputs accepted and `q` pulses raised
so far: the counter has counted the inputs, a pulse is due for each `DECIMATION` of them, and
the two data paths have run for `a` samples and `q` samples. -/
structure CicInv (s₀ : CicFilter P) (b : ℕ → BitVec P.WIDTH) (a q : ℕ) (s : CicFilter P) :
    Prop where
  count : s.decimation_count.toNat = a % P.DECIMATION
  due : q + (if s.comb_enable then 1 else 0) = a / P.DECIMATION
  whole : s.comb_enable = true → P.DECIMATION ∣ a
  idata : s.idata_reg = run integrate s₀.idata_reg (fun k => (b k).signExtend P.WIDTHO) a
  combs : s.combs = run (Combs.step P.ddelay_pos) s₀.combs
    (fun k => run integrate s₀.idata_reg (fun k => (b k).signExtend P.WIDTHO)
      (k * P.DECIMATION + P.DECIMATION) P.lastStage) q

section Invariant

variable {s₀ s : CicFilter P} {b : ℕ → BitVec P.WIDTH} {a q : ℕ} {v : CicIn P}

theorem CicInv.init (h1 : s₀.decimation_count = 0) (h2 : s₀.comb_enable = false) :
    CicInv s₀ b 0 0 s₀ where
  count := by rw [h1]; simp
  due := by rw [h2]; simp
  whole := by rw [h2]; simp
  idata := rfl
  combs := rfl

/-- When the comb section is enabled, the last integrator holds the sample that is due. -/
theorem CicInv.comb_input (h : CicInv s₀ b a q s) (hc : s.comb_enable = true) :
    a = q * P.DECIMATION + P.DECIMATION := by
  have hdue := h.due
  rw [hc, if_pos rfl] at hdue
  have hmul := Nat.div_mul_cancel (h.whole hc)
  rw [← hdue] at hmul
  rw [← hmul]
  ring

/-- An edge that executes the comb section, or does not, moves the combs on by one sample, or
none. -/
theorem CicInv.combs_step (h : CicInv s₀ b a q s) (hr : v.clock_sreset = false) :
    (s.step v).combs = run (Combs.step P.ddelay_pos) s₀.combs
      (fun k => run integrate s₀.idata_reg (fun k => (b k).signExtend P.WIDTHO)
        (k * P.DECIMATION + P.DECIMATION) P.lastStage)
      (q + if s.comb_enable then 1 else 0) := by
  cases hc : s.comb_enable with
  | true =>
      rw [step_combs_enable hr hc, if_pos rfl, run_succ, ← h.combs, h.idata, h.comb_input hc]
  | false =>
      rw [step_combs_hold hr hc, h.combs]
      rfl

/-- An edge that accepts the next sample. -/
theorem CicInv.accept (h : CicInv s₀ b a q s) (hr : v.clock_sreset = false)
    (hv : v.data_in_valid = true) (hb : b a = v.data_in) :
    CicInv s₀ b (a + 1) (q + if s.comb_enable then 1 else 0) (s.step v) := by
  have hR := P.decimation_two
  obtain ⟨hcount, hcomb⟩ := step_decimation_count hr hv h.count
  refine ⟨hcount, ?_, ?_, ?_, h.combs_step hr⟩
  · rw [hcomb, h.due, Nat.succ_div]
    simp only [decide_eq_true_eq]
  · intro hc
    rw [hcomb] at hc
    exact of_decide_eq_true hc
  · rw [step_idata_valid hr hv, run_succ, ← h.idata, hb]

/-- A stalled edge. -/
theorem CicInv.stall (h : CicInv s₀ b a q s) (hr : v.clock_sreset = false)
    (hv : v.data_in_valid = false) :
    CicInv s₀ b a (q + if s.comb_enable then 1 else 0) (s.step v) := by
  refine ⟨?_, ?_, ?_, ?_, h.combs_step hr⟩
  · rw [← h.count]
    simp [step, hr, hv]
  · rw [step_comb_enable_stall hr hv, h.due]
    rfl
  · rw [step_comb_enable_stall hr hv]
    intro hc
    cases hc
  · rw [step_idata_stall hr hv, h.idata]

end Invariant

section Run

variable {s₀ : CicFilter P} {u : ℕ → CicIn P} {b : ℕ → BitVec P.WIDTH} {N : ℕ}

/-- The invariant holds along every run out of a reset. -/
theorem cicInv_run (h1 : s₀.decimation_count = 0) (h2 : s₀.comb_enable = false)
    (hu : Running u) (hb : Lists b u N) (n : ℕ) (hn : n ≤ N) :
    CicInv s₀ b (accepted u n).length (pulses s₀ u n).length (run step s₀ u n) := by
  induction n with
  | zero => exact CicInv.init h1 h2
  | succ n ih =>
      have h := ih (by omega)
      rw [run_succ, pulses_succ hu]
      cases hv : (u n).data_in_valid with
      | true =>
          rw [accepted_succ_valid hv, List.length_append, List.length_singleton]
          exact h.accept (hu n) hv (hb n (by omega) hv)
      | false =>
          rw [accepted_succ_stall hv]
          exact h.stall (hu n) hv

/-- One pulse for each `DECIMATION` accepted inputs, raised by the edge after the one that
accepts the last of them. -/
theorem pulses_length (h1 : s₀.decimation_count = 0) (h2 : s₀.comb_enable = false)
    (hu : Running u) (n : ℕ) :
    (pulses s₀ u (n + 1)).length = (accepted u n).length / P.DECIMATION := by
  rw [pulses_succ hu]
  exact (cicInv_run h1 h2 hu (lists_accepted u n) n (le_refl n)).due

/-- Pulses last one cycle. -/
theorem comb_enable_single (h1 : s₀.decimation_count = 0) (h2 : s₀.comb_enable = false)
    (hu : Running u) (n : ℕ) (hc : (run step s₀ u n).comb_enable = true) :
    (run step s₀ u (n + 1)).comb_enable = false := by
  have hR := P.decimation_two
  have h := cicInv_run h1 h2 hu (lists_accepted u (n + 1)) n (by omega)
  have h' := cicInv_run h1 h2 hu (lists_accepted u (n + 1)) (n + 1) (le_refl _)
  by_contra hcon
  rw [Bool.not_eq_false] at hcon
  -- two comb edges in a row would make two neighbouring counts multiples of `DECIMATION`
  have hd := h.whole hc
  have hd' := h'.whole hcon
  cases hv : (u n).data_in_valid with
  | true =>
      rw [accepted_succ_valid hv, List.length_append, List.length_singleton] at hd'
      have := (Nat.dvd_add_right hd).mp hd'
      have := Nat.le_of_dvd (by omega) this
      omega
  | false =>
      rw [run_succ, step_comb_enable_stall (hu n) hv] at hcon
      cases hcon

/-- With `data_in_valid` high all the time the comb section runs after every
`DECIMATION` edges. -/
theorem comb_enable_of_valid (h1 : s₀.decimation_count = 0) (h2 : s₀.comb_enable = false)
    (hu : Running u) (hv : ∀ k, (u k).data_in_valid = true) (n : ℕ) :
    (run step s₀ u n).comb_enable = decide (0 < n ∧ P.DECIMATION ∣ n) := by
  cases n with
  | zero => rw [run_zero, h2]; rfl
  | succ n =>
      have h := cicInv_run h1 h2 hu (lists_accepted u n) n (le_refl n)
      rw [accepted_length_of_valid hv] at h
      rw [run_succ, (step_decimation_count (hu n) (hv n) h.count).2]
      simp

/-- The value of the last comb node once the registers left by the reset have been flushed. -/
theorem sub_node_response (h1 : s₀.decimation_count = 0) (h2 : s₀.comb_enable = false)
    (hu : Running u) (hb : Lists b u N) (n : ℕ) (hn : n ≤ N) (q : ℕ)
    (hq : (pulses s₀ u n).length = q + P.STAGES * (P.DDELAY + 1)) :
    (run step s₀ u n).sub_node P.lastStage
      = BitVec.ofInt P.WIDTHO (windowResponse (P.DECIMATION * P.DDELAY) P.STAGES
          (fun k => (b k).toInt) (q * P.DECIMATION + P.DECIMATION
            + P.STAGES * (P.DECIMATION * P.DDELAY - 1))) := by
  have hR := P.decimation_two
  have hcombs := (cicInv_run h1 h2 hu hb n hn).combs
  rw [hq] at hcombs
  calc (run step s₀ u n).sub_node P.lastStage
      = (run step s₀ u n).combs.node P.lastStage := rfl
    _ = (run (Combs.step P.ddelay_pos) s₀.combs
          (fun k => run integrate s₀.idata_reg (fun k => (b k).signExtend P.WIDTHO)
            (k * P.DECIMATION + P.DECIMATION) P.lastStage)
          (q + P.STAGES * (P.DDELAY + 1))).node P.lastStage := by rw [hcombs]
    _ = _ := cascade_response_ofInt P.stages_pos P.ddelay_pos P.DECIMATION P.DECIMATION (by omega)
          s₀.idata_reg s₀.combs b q

/-- The sample `data_out` takes on an edge, once the filter is flushed: a window of the
response. -/
theorem data_out_response (h1 : s₀.decimation_count = 0) (h2 : s₀.comb_enable = false)
    (hu : Running u) (hb : Lists b u N) (n : ℕ) (hn : n ≤ N) (q : ℕ)
    (hq : (pulses s₀ u n).length = q + P.STAGES * (P.DDELAY + 1)) :
    (run step s₀ u (n + 1)).data_out
      = BitVec.ofInt P.WIDTHR (windowResponse (P.DECIMATION * P.DDELAY) P.STAGES
          (fun k => (b k).toInt) (q * P.DECIMATION + P.DECIMATION
            + P.STAGES * (P.DECIMATION * P.DDELAY - 1))
          / 2 ^ P.shiftAmount (u n).gain) := by
  obtain ⟨hl, hh⟩ := windowResponse_fits P.window_pos b (q * P.DECIMATION + P.DECIMATION
    + P.STAGES * (P.DECIMATION * P.DDELAY - 1))
  rw [run_succ, step_data_out (hu n), sub_node_response h1 h2 hu hb n hn q hq,
    setWidth_sshiftRight_ofInt P.widthr_le_widtho hl hh]

end Run

/-! ## The result -/

/-- The `k`-th accepted input, counted from one, as an integer. -/
def sample {w : ℕ} (xs : List (BitVec w)) (k : ℕ) : ℤ := (xs.getD (k - 1) 0).toInt

/-- The newest sample in the response on pulse `q + S (M + 1) + 1`, counted from zero. -/
theorem newest_index {S M R : ℕ} (hS : 1 ≤ S) (hRM : 1 ≤ R * M) (q : ℕ) :
    q * R + R + S * (R * M - 1) = (q + S * (M + 1) + 1 - S) * R - (S - 1) - 1 := by
  have hpulse : q + S * (M + 1) + 1 - S = q + S * M + 1 := by
    rw [Nat.mul_succ]
    omega
  have hwindow : S * (R * M - 1) + S = S * (R * M) := by
    rw [← Nat.mul_succ, Nat.succ_eq_add_one, Nat.sub_add_cancel hRM]
  calc q * R + R + S * (R * M - 1)
      = q * R + R + S * (R * M) - (S - 1) - 1 := by omega
    _ = (q + S * M + 1) * R - (S - 1) - 1 := by
        rw [show (q + S * M + 1) * R = q * R + R + S * (R * M) by ring]
    _ = (q + S * (M + 1) + 1 - S) * R - (S - 1) - 1 := by rw [hpulse]

/-- The output on pulse `p`, once the filter is flushed, in terms of the accepted inputs. -/
theorem data_out_pulse {s₀ : CicFilter P} {u : ℕ → CicIn P} (h1 : s₀.decimation_count = 0)
    (h2 : s₀.comb_enable = false) (hu : Running u) {n p : ℕ}
    (hv : (run step s₀ u (n + 1)).data_out_valid = true)
    (hp : (pulses s₀ u (n + 1)).length = p) (hflush : P.STAGES * (P.DDELAY + 1) + 1 ≤ p) :
    (run step s₀ u (n + 1)).data_out
      = BitVec.ofInt P.WIDTHR
        (windowResponse (P.DECIMATION * P.DDELAY) P.STAGES (sample (accepted u n))
          ((p - P.STAGES) * P.DECIMATION - (P.STAGES - 1))
          / 2 ^ P.shiftAmount (u n).gain) := by
  rw [run_succ, step_data_out_valid (hu n)] at hv
  -- the edge that raises pulse `p` executes the combs after `p - 1` earlier pulses
  have hq := @pulses_succ P s₀ u n hu
  rw [hv, if_pos rfl, hp] at hq
  have hlen : (pulses s₀ u n).length
      = (p - 1 - P.STAGES * (P.DDELAY + 1)) + P.STAGES * (P.DDELAY + 1) := by omega
  rw [data_out_response h1 h2 hu (lists_accepted u n) n (le_refl n) _ hlen]
  congr 2
  apply windowResponse_congr
  intro j _
  have hnewest := newest_index P.stages_pos P.window_pos (p - 1 - P.STAGES * (P.DDELAY + 1))
  rw [show p - 1 - P.STAGES * (P.DDELAY + 1) + P.STAGES * (P.DDELAY + 1) + 1 = p by omega]
    at hnewest
  rw [hnewest, sample, Nat.sub_right_comm]

/-- **`cic_filter` computes the exact response of the decimating CIC filter.** From any state
`s`, through a reset edge `r` that leaves arbitrary values in the data registers, and for every
pattern of valid inputs afterwards: there is one pulse, one cycle long, for each `DECIMATION`
accepted inputs, and from pulse number `STAGES * (DDELAY + 1) + 1` on the output is the floor of
the shifted integer response, whatever the registers held and however the integrators wrap. -/
theorem cic_filter_exact_response (s : CicFilter P) (r : CicIn P) (hr : r.clock_sreset = true)
    (u : ℕ → CicIn P) (hu : Running u) :
    (∀ n, (pulses (s.step r) u (n + 1)).length = (accepted u n).length / P.DECIMATION) ∧
    (∀ n, (run step (s.step r) u n).data_out_valid = true →
      (run step (s.step r) u (n + 1)).data_out_valid = false) ∧
    ∀ n p, (run step (s.step r) u (n + 1)).data_out_valid = true →
      (pulses (s.step r) u (n + 1)).length = p → P.STAGES * (P.DDELAY + 1) + 1 ≤ p →
      (u n).gain.toNat ≤ P.WIDTHO - P.WIDTHR →
      (run step (s.step r) u (n + 1)).data_out
        = BitVec.ofInt P.WIDTHR
          (windowResponse (P.DECIMATION * P.DDELAY) P.STAGES (sample (accepted u n))
            ((p - P.STAGES) * P.DECIMATION - (P.STAGES - 1))
            / 2 ^ (P.WIDTHO - P.WIDTHR - (u n).gain.toNat)) := by
  have h1 : (s.step r).decimation_count = 0 := by simp [step, hr]
  have h2 : (s.step r).comb_enable = false := by simp [step, hr]
  have h3 : (s.step r).data_out_valid = false := by simp [step, hr]
  refine ⟨pulses_length h1 h2 hu, ?_, ?_⟩
  · intro n hv
    cases n with
    | zero => rw [run_zero, h3] at hv; cases hv
    | succ n =>
        rw [run_succ, step_data_out_valid (hu n)] at hv
        rw [run_succ, step_data_out_valid (hu (n + 1))]
        exact comb_enable_single h1 h2 hu n hv
  · intro n p hv hp hflush hg
    rw [data_out_pulse h1 h2 hu hv hp hflush, CicParams.shiftAmount_of_le hg]

/-! ### A run with stalls

One stage, decimation by two, two-bit samples, every third input stalled: the third pulse is
raised by edge 9. -/

def oneStage : CicParams where
  WIDTH := 2
  STAGES := 1
  DDELAY := 1
  DECIMATION := 2
  WIDTHR := 2
  stages_pos := by decide
  ddelay_pos := by decide
  decimation_two := by decide
  widthr_le := by decide

def oneStageGarbage : CicFilter oneStage where
  idata_reg _ := 3
  cdata_reg _ _ := 5
  sub_node _ := 6
  decimation_count := 1
  comb_enable := true
  data_out_valid := true
  data_out := 1

def oneStageReset : CicIn oneStage where
  clock_sreset := true
  gain := 0
  data_in_valid := false
  data_in := 0
  dontcare := oneStageGarbage

def oneStageInput (k : ℕ) : CicIn oneStage where
  clock_sreset := false
  gain := 1
  data_in_valid := k % 3 != 1
  data_in := BitVec.ofNat 2 k
  dontcare := oneStageGarbage

theorem cic_filter_exact_response_oneStage :
    (run step (oneStageGarbage.step oneStageReset) oneStageInput 10).data_out
      = BitVec.ofInt 2 (windowResponse (2 * 1) 1 (sample (accepted oneStageInput 9))
          ((3 - 1) * 2 - (1 - 1)) / 2 ^ (3 - 2 - 1)) :=
  (cic_filter_exact_response oneStageGarbage oneStageReset rfl oneStageInput
    (fun _ => rfl)).2.2 9 3 (by decide) (by decide) (by decide) (by decide)

end CicFilter

end OneBitSDR
