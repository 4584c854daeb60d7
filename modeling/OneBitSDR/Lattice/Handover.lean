import OneBitSDR.CicGain
import OneBitSDR.Lattice.AMDemodulator

set_option autoImplicit false

/-! # From the `CIC` filters to the demodulator

`d_clk` of one filter clocks the demodulator, which samples `d_out` of both. The terminal count
sets `v_comb` and `d_clk_tmp` together, so one edge later the output is written and `d_clk` rises,
on the same edge. The output is stable on all other edges, the falling one included, and the two
filters of the receiver write theirs together: a pair that is read on one side of a rising edge is
of one decimation step. The side itself is not settled by the clock.
-/

namespace OneBitSDR

open Clocked

namespace Cic

variable {width R : ℕ}

/-- `count` and `v_comb` at power-up; the other registers may hold anything. -/
structure PowerUp (s : Cic width) : Prop where
  count : s.count = 0
  v_comb : s.v_comb = false

/-! ## The output clock -/

/-- Edge `n` raises `d_clk`. -/
def raises (R : ℕ) (s : Cic width) (u : ℕ → CicPort) (n : ℕ) : Bool :=
  !(run (step R) s u n).d_clk && (run (step R) s u (n + 1)).d_clk

/-- What links the output clock to the combs. The clock flag has gone down in the second half of
the count. -/
structure Phase (R : ℕ) (s : Cic width) : Prop where
  comb : s.v_comb = (s.d_clk_tmp && !s.d_clk)
  half : R / 2 < s.count.toNat → s.d_clk_tmp = false

theorem step_d_out_hold {s : Cic width} (u : CicPort) (hv : s.v_comb = false) :
    (step R s u).d_out = s.d_out := by
  simp [step, hv]

theorem toNat_step_count {s : Cic width} (u : CicPort) (hend : atEnd R s = false) :
    (step R s u).count.toNat ≤ s.count.toNat + 1 := by
  have hcount : (step R s u).count = s.count + 1 := by simp [step, hend]
  rw [hcount, BitVec.toNat_add]
  exact Nat.mod_le _ _

theorem Phase.step (hR : 3 ≤ R) {s : Cic width} (h : Phase R s) (u : CicPort) :
    Phase R (step R s u) := by
  cases hend : atEnd R s with
  | true =>
      have hcount : s.count.toNat + 1 = R := of_decide_eq_true hend
      -- the terminal count is in the second half
      have hlow := h.half (by omega)
      refine ⟨?_, ?_⟩
      · simp [Cic.step, hend, hlow]
      · intro hhalf
        have hzero : (Cic.step R s u).count = 0 := by simp [Cic.step, hend]
        rw [hzero] at hhalf
        exact absurd hhalf (Nat.not_lt_zero _)
  | false =>
      cases hmid : atHalf R s with
      | true => exact ⟨by simp [Cic.step, hend, hmid], fun _ => by simp [Cic.step, hend, hmid]⟩
      | false =>
          refine ⟨by simp [Cic.step, hend, hmid], ?_⟩
          intro hhalf
          have hle := toNat_step_count u hend
          have hne : ¬ s.count.toNat = R / 2 := of_decide_eq_false hmid
          have hkeep : (Cic.step R s u).d_clk_tmp = s.d_clk_tmp := by simp [Cic.step, hend, hmid]
          rw [hkeep]
          exact h.half (by omega)

/-- The first edge settles the clock, whatever it has been. -/
theorem PowerUp.phase (hR : 3 ≤ R) {s : Cic width} (h : PowerUp s) (u : CicPort) :
    Phase R (Cic.step R s u) := by
  have hzero : s.count.toNat = 0 := by
    rw [h.count]
    rfl
  have hend : atEnd R s = false := decide_eq_false (by omega)
  have hmid : atHalf R s = false := decide_eq_false (by omega)
  refine ⟨by simp [Cic.step, hend, hmid], ?_⟩
  intro hhalf
  have hle := toNat_step_count u hend
  omega

theorem run_phase (hR : 3 ≤ R) {s : Cic width} (h0 : PowerUp s) (u : ℕ → CicPort) (n : ℕ) :
    Phase R (run (Cic.step R) s u (n + 1)) := by
  induction n with
  | zero => exact h0.phase hR (u 0)
  | succ n ih => exact ih.step hR (u (n + 1))

/-- The clock rises exactly when the combs run. -/
theorem raises_eq_v_comb (hR : 3 ≤ R) {s : Cic width} (h0 : PowerUp s) (u : ℕ → CicPort) {n : ℕ}
    (hn : 0 < n) : raises R s u n = (run (Cic.step R) s u n).v_comb := by
  obtain ⟨k, rfl⟩ := Nat.exists_eq_add_of_le' hn
  rw [(run_phase hR h0 u k).comb, Bool.and_comm]
  rfl

/-- No output is written on an edge that does not raise the clock. -/
theorem d_out_of_not_raises (hR : 3 ≤ R) {s : Cic width} (h0 : PowerUp s) (u : ℕ → CicPort)
    {n : ℕ} (h : raises R s u n = false) :
    (run (Cic.step R) s u (n + 1)).d_out = (run (Cic.step R) s u n).d_out := by
  refine step_d_out_hold (u n) ?_
  cases n with
  | zero => exact h0.v_comb
  | succ n =>
      rw [← raises_eq_v_comb hR h0 u (Nat.succ_pos n)]
      exact h

/-- The filter shows the last output it has written, or what it held at power-up. -/
theorem d_out_getElem (s : Cic width) (u : ℕ → CicPort) (n : ℕ) :
    (s.d_out :: outputs R s u n)[(outputs R s u n).length]?
      = some (run (Cic.step R) s u n).d_out := by
  induction n with
  | zero => rfl
  | succ n ih =>
      cases hv : (run (Cic.step R) s u n).v_comb with
      | true =>
          have hnew : outputs R s u (n + 1)
              = outputs R s u n ++ [(run (Cic.step R) s u (n + 1)).d_out] :=
            events_succ_some (strobe_true hv)
          rw [hnew]
          simp
      | false =>
          have hsame : outputs R s u (n + 1) = outputs R s u n :=
            events_succ_none (strobe_false hv)
          rw [hsame, ih, run_succ, step_d_out_hold (u n) hv]

/-! ## The two filters -/

section Pair

variable {i q : Cic width} (u v : ℕ → CicPort)

/-- The two filters count together, whatever their inputs are. -/
theorem run_count_agree (hi : PowerUp i) (hq : PowerUp q) (n : ℕ) :
    (run (Cic.step R) i u n).count = (run (Cic.step R) q v n).count ∧
    (run (Cic.step R) i u n).v_comb = (run (Cic.step R) q v n).v_comb := by
  refine run_relation (fun s t : Cic width => s.count = t.count ∧ s.v_comb = t.v_comb) ?_ ?_ n
  · exact ⟨by rw [hi.count, hq.count], by rw [hi.v_comb, hq.v_comb]⟩
  · rintro k s t ⟨hcount, -⟩
    have hend : atEnd R s = atEnd R t := by rw [atEnd, atEnd, hcount]
    refine ⟨?_, hend⟩
    simp only [Cic.step, hend, hcount]

theorem outputs_length_agree (hi : PowerUp i) (hq : PowerUp q) (n : ℕ) :
    (outputs R i u n).length = (outputs R q v n).length := by
  induction n with
  | zero => rfl
  | succ n ih => rw [outputs_succ, outputs_succ, ih, (run_count_agree u v hi hq n).2]

/-- What the demodulator takes in on edge `n`: it is clocked by the first filter, and reads both
outputs before the edge or both after it. -/
def captured (R : ℕ) (i q : Cic width) (u v : ℕ → CicPort) (after : ℕ → Bool) (n : ℕ) : Option IQ :=
  if raises R i u n then
    some
      { I_in := (run (Cic.step R) i u (n + (after n).toNat)).d_out
        Q_in := (run (Cic.step R) q v (n + (after n).toNat)).d_out }
  else none

/-- A captured pair consists of the last outputs of one decimation step, the `k`-th of each, or
of the values at power-up. -/
theorem captured_same_step (hi : PowerUp i) (hq : PowerUp q) {after : ℕ → Bool} {n : ℕ} {iq : IQ}
    (h : captured R i q u v after n = some iq) :
    ∃ m k : ℕ, (outputs R i u m).length = k ∧ (outputs R q v m).length = k ∧
      (i.d_out :: outputs R i u m)[k]? = some iq.I_in ∧
      (q.d_out :: outputs R q v m)[k]? = some iq.Q_in := by
  unfold captured at h
  by_cases hr : raises R i u n = true
  · rw [if_pos hr, Option.some_inj] at h
    rw [← h]
    have hlen := outputs_length_agree (R := R) u v hi hq (n + (after n).toNat)
    refine ⟨n + (after n).toNat, _, rfl, hlen.symm, d_out_getElem i u _, ?_⟩
    rw [hlen]
    exact d_out_getElem q v _
  · rw [if_neg hr] at h
    cases h

end Pair

/-- **The hand-over.** For two filters of an equal ratio, from power-up and whatever their inputs
are: after the first edge, `d_clk` rises on the same edges in both, and these are the edges on
which the outputs are written; on all others the outputs are stable. Whichever side of each rising
edge the demodulator reads, it captures a pair of one decimation step. -/
theorem cic_handover (hR : 3 ≤ R) {i q : Cic width} (hi : PowerUp i) (hq : PowerUp q)
    (u v : ℕ → CicPort) :
    (∀ n, 0 < n → raises R i u n = raises R q v n) ∧
    (∀ n, 0 < n → raises R i u n = true →
      (run (Cic.step R) i u (n + 1)).d_out
        = ((run (Cic.step R) i u n).d10.sshiftRight (shiftAmount width (u n).Gain)).setWidth 12 ∧
      (run (Cic.step R) q v (n + 1)).d_out
        = ((run (Cic.step R) q v n).d10.sshiftRight (shiftAmount width (v n).Gain)).setWidth 12) ∧
    (∀ n, 0 < n → raises R i u n = false →
      (run (Cic.step R) i u (n + 1)).d_out = (run (Cic.step R) i u n).d_out ∧
      (run (Cic.step R) q v (n + 1)).d_out = (run (Cic.step R) q v n).d_out) ∧
    (∀ (after : ℕ → Bool) (n : ℕ) (iq : IQ), captured R i q u v after n = some iq →
      ∃ m k : ℕ, (outputs R i u m).length = k ∧ (outputs R q v m).length = k ∧
        (i.d_out :: outputs R i u m)[k]? = some iq.I_in ∧
        (q.d_out :: outputs R q v m)[k]? = some iq.Q_in) := by
  have hsame : ∀ n, 0 < n → raises R i u n = raises R q v n := by
    intro n hn
    rw [raises_eq_v_comb hR hi u hn, raises_eq_v_comb hR hq v hn]
    exact (run_count_agree u v hi hq n).2
  refine ⟨hsame, ?_, ?_, fun after n iq => captured_same_step u v hi hq⟩
  · intro n hn h
    have hvi := (raises_eq_v_comb hR hi u hn).symm.trans h
    have hvq := (raises_eq_v_comb hR hq v hn).symm.trans ((hsame n hn).symm.trans h)
    rw [run_succ, step_d_out hvi, run_succ, step_d_out hvq]
    exact ⟨rfl, rfl⟩
  · intro n hn h
    exact ⟨d_out_of_not_raises hR hi u h, d_out_of_not_raises hR hq v ((hsame n hn).symm.trans h)⟩

theorem clearedCic_powerUp : PowerUp clearedCic := ⟨rfl, rfl⟩

/-- A constant input of -1, without gain. -/
def minusOne (_ : ℕ) : CicPort where
  Gain := 0
  d_in := -1

/-- Two filters with different inputs: both clocks rise on edge 28, and the next edge leaves the
output alone. -/
theorem cic_handover_cleared :
    PowerUp clearedCic ∧ raises 4 clearedCic (fun _ => fullScale 0) 28 = true ∧
    (run (Cic.step 4) clearedCic minusOne 30).d_out
      = (run (Cic.step 4) clearedCic minusOne 29).d_out := by
  have hrises : raises 4 clearedCic minusOne 28 = true := by decide +kernel
  have hquiet : raises 4 clearedCic minusOne 29 = false := by decide +kernel
  obtain ⟨hsame, -, hstable, -⟩ := cic_handover (R := 4) (by omega) clearedCic_powerUp
    clearedCic_powerUp minusOne (fun _ => fullScale 0)
  exact ⟨clearedCic_powerUp, (hsame 28 (by omega)).symm.trans hrises,
    (hstable 29 (by omega) hquiet).1⟩

/-- The output is not stable where the clock rises: it becomes -1 on edge 28, which is a rising
one. -/
theorem cic_handover_unstable :
    raises 4 clearedCic minusOne 28 = true ∧
    (run (Cic.step 4) clearedCic minusOne 28).d_out = 0 ∧
    (run (Cic.step 4) clearedCic minusOne 29).d_out = -1 ∧
    ¬ ∀ (R : ℕ) (s : Cic 72) (u : ℕ → CicPort) (n : ℕ), 4 ≤ R → 2 ∣ R → PowerUp s →
      raises R s u n = true →
      (run (Cic.step R) s u (n + 1)).d_out = (run (Cic.step R) s u n).d_out := by
  have hrises : raises 4 clearedCic minusOne 28 = true := by decide +kernel
  have hbefore : (run (Cic.step 4) clearedCic minusOne 28).d_out = 0 := by decide +kernel
  have hafter : (run (Cic.step 4) clearedCic minusOne 29).d_out = -1 := by decide +kernel
  refine ⟨hrises, hbefore, hafter, ?_⟩
  intro h
  have hstable := h 4 clearedCic minusOne 28 (by omega) (by decide) clearedCic_powerUp hrises
  rw [hbefore, hafter] at hstable
  exact absurd hstable (by decide)

end Cic

end OneBitSDR
