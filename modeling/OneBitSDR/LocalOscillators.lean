import OneBitSDR.Cyclone.QuarterWave
import OneBitSDR.Lattice.NCO

set_option autoImplicit false

/-! # The frequency of the local oscillators

`nco_sig` and `nco` tune by the increment of a phase accumulator. Both follow the accumulator of
`Signal.Phase`: the number of periods in any window is the number of full turns of the phase, and
a change of the increment leaves the phase where it is.
-/

namespace OneBitSDR

open Clocked Signal

section Frequency

variable {WIDTHA WIDTHS WIDTHT : ℕ}

/-- Outside reset the phase of `nco` is the start phase plus the sum of the increments. -/
theorem Nco.run_phase_accumulator (ram_table : BitVec (WIDTHT - 2) → BitVec WIDTHS)
    (s : Nco WIDTHA WIDTHS WIDTHT) (u : ℕ → Nco.Ports WIDTHA) (n : ℕ)
    (hr : ∀ k < n, (u k).clock_sreset = false) :
    (run (Nco.clocked ram_table) s u n).phase_accumulator
      = s.phase_accumulator + ∑ k ∈ Finset.range n, (u k).phase_increment := by
  have h : (run (Nco.clocked ram_table) s u n).phase_accumulator
      = run (· + ·) s.phase_accumulator (fun k => (u k).phase_increment) n := by
    refine run_proj_of Nco.phase_accumulator (fun _ (v : Nco.Ports WIDTHA) => v.phase_increment) ?_
    intro k hk
    simp [Nco.clocked, Nco.step, hr k hk]
  rw [h, run_accumulate]

/-- `count` periods over `N` clocks are exact for the increment `inc` and the phase at the start
of the window: they are its full turns, which is the nominal number or one more. -/
structure ExactlyTuned {w : ℕ} (phase inc : BitVec w) (N count : ℕ) : Prop where
  turns : count = (phase.toNat + N * inc.toNat) / 2 ^ w
  nominal : count = N * inc.toNat / 2 ^ w ∨ count = N * inc.toNat / 2 ^ w + 1

/-- The falling edges of the top bit of an accumulator. -/
theorem exactlyTuned_falls {w : ℕ} (phase : ℕ → BitVec w) {inc : BitVec w}
    (hpos : 0 < inc.toNat) (hinc : inc.toNat ≤ 2 ^ (w - 1)) {N : ℕ}
    (hstep : ∀ k < N, phase (k + 1) = phase k + inc) :
    ExactlyTuned (phase 0) inc N (falls (fun k => (phase k).getLsbD (w - 1)) N) := by
  -- a positive increment needs at least one bit
  have hwidth : w ≠ 0 := by
    rintro rfl
    have := inc.isLt
    omega
  have hhalf : 2 * inc.toNat ≤ 2 ^ w :=
    calc 2 * inc.toNat ≤ 2 * 2 ^ (w - 1) := Nat.mul_le_mul_left 2 hinc
      _ = 2 ^ w := mul_pow_sub_one hwidth 2
  have hturns : falls (fun k => (phase k).getLsbD (w - 1)) N
      = ((phase 0).toNat + N * inc.toNat) / 2 ^ w := by
    simp only [← BitVec.msb_eq_getLsbD_last]
    exact falls_msb hhalf hstep
  refine ⟨hturns, ?_⟩
  rw [hturns]
  exact add_div_eq_or (phase 0).isLt

/-- The sine of `nco_sig` rises where the top bit of the phase falls. -/
theorem NcoSig.rises_sin_out (s : ℕ → NcoSig) (N : ℕ) :
    rises (fun k => (s k).sin_out) N = falls (fun k => (s k).phase_accum.getLsbD 63) N := by
  have hsin : (fun k => (s k).sin_out) = fun k => !(s k).phase_accum.getLsbD 63 := by
    funext k
    rw [NcoSig.sin_out_eq, BitVec.msb_eq_getLsbD_last]
  rw [hsin, rises_not]

/-- **The frequency of both oscillators is exact.** In every window in which the increment is
constant, positive and at most half a turn, the rising edges of `sin_out` of `nco_sig` and the
falling edges of the top bit of the phase of `nco` are the full turns of the phase. After any
increments the phase is the start phase plus their sum. -/
theorem oscillator_frequency_exact (ram_table : BitVec (WIDTHT - 2) → BitVec WIDTHS) :
    (∀ (s : NcoSig) (u : ℕ → BitVec 64) (m N : ℕ) (inc : BitVec 64),
      0 < inc.toNat → inc.toNat ≤ 2 ^ (64 - 1) → (∀ k < N, u (m + k) = inc) →
      let sin := fun k => (run NcoSig.step s u (m + k)).sin_out
      let top := fun k => (run NcoSig.step s u (m + k)).phase_accum.getLsbD 63
      rises sin N = falls top N ∧
        ExactlyTuned (run NcoSig.step s u m).phase_accum inc N (rises sin N)) ∧
    (∀ (s : Nco WIDTHA WIDTHS WIDTHT) (u : ℕ → Nco.Ports WIDTHA) (m N : ℕ) (inc : BitVec WIDTHA),
      0 < inc.toNat → inc.toNat ≤ 2 ^ (WIDTHA - 1) →
      (∀ k < N, u (m + k) = ⟨false, inc⟩) →
      ExactlyTuned (run (Nco.clocked ram_table) s u m).phase_accumulator inc N
        (falls (fun k => (run (Nco.clocked ram_table) s u (m + k)).phase_accumulator.getLsbD
          (WIDTHA - 1)) N)) ∧
    (∀ (s : NcoSig) (u : ℕ → BitVec 64) (n : ℕ),
      (run NcoSig.step s u n).phase_accum = s.phase_accum + ∑ k ∈ Finset.range n, u k) ∧
    (∀ (s : Nco WIDTHA WIDTHS WIDTHT) (u : ℕ → Nco.Ports WIDTHA) (n : ℕ),
      (∀ k < n, (u k).clock_sreset = false) →
      (run (Nco.clocked ram_table) s u n).phase_accumulator
        = s.phase_accumulator + ∑ k ∈ Finset.range n, (u k).phase_increment) := by
  refine ⟨?_, ?_, NcoSig.run_phase_accum, Nco.run_phase_accumulator ram_table⟩
  · intro s u m N inc hpos hinc hu sin top
    have hrises : rises sin N = falls top N :=
      NcoSig.rises_sin_out (fun k => run NcoSig.step s u (m + k)) N
    refine ⟨hrises, ?_⟩
    rw [hrises]
    refine exactlyTuned_falls (fun k => (run NcoSig.step s u (m + k)).phase_accum) hpos hinc ?_
    intro k hk
    rw [← Nat.add_assoc, run_succ, hu k hk]
    rfl
  · intro s u m N inc hpos hinc hu
    refine exactlyTuned_falls
      (fun k => (run (Nco.clocked ram_table) s u (m + k)).phase_accumulator) hpos hinc ?_
    intro k hk
    rw [← Nat.add_assoc, run_succ, hu k hk]
    rfl

end Frequency

/-- An eighth of a turn per clock: 20 clocks from phase `7 / 8` complete three turns, in both
oscillators. -/
theorem oscillator_frequency_exact_eighth :
    rises (fun k => (run NcoSig.step ⟨BitVec.ofNat 64 (7 * 2 ^ 61)⟩
      (fun _ => BitVec.ofNat 64 (2 ^ 61)) (0 + k)).sin_out) 20 = 3 ∧
    falls (fun k => (run (Nco.clocked quarterWave) (Nco.atPhase 0xe0000000)
      (fun _ => ⟨false, 0x20000000⟩) (0 + k)).phase_accumulator.getLsbD 31) 20 = 3 := by
  have h := @oscillator_frequency_exact 32 16 11 quarterWave
  have hsig := (h.1 ⟨BitVec.ofNat 64 (7 * 2 ^ 61)⟩ (fun _ => BitVec.ofNat 64 (2 ^ 61)) 0 20
    (BitVec.ofNat 64 (2 ^ 61)) (by decide) (by decide) (fun _ _ => rfl)).2.turns
  have hnco := (h.2.1 (Nco.atPhase 0xe0000000) (fun _ => ⟨false, 0x20000000⟩) 0 20 0x20000000
    (by decide) (by decide) (fun _ _ => rfl)).turns
  exact ⟨hsig.trans (by decide), hnco.trans (by decide)⟩

end OneBitSDR
