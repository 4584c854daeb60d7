import OneBitSDR.Cyclone.Receiver
import OneBitSDR.Cyclone.SystemMonitor

set_option autoImplicit false

/-! # The hardware of `sdr.sv` from power-up

`system_monitor` counts on the clock of the internal oscillator and resets the modules on the clock
of the PLL. Only the counter has an initial value, and the PLL is restarted as long as it does not
lock. Once it is locked for good the counter reaches its end and stays there: the reset is released
for the last time, four clocks of the PLL later, and from then on the receiver plays.
-/

namespace OneBitSDR

open Clocked

/-! ## The last reset -/

namespace SystemMonitor

section Settles

variable {s : SystemMonitor} {pll_locked : ℕ → Bool} {n : ℕ}
  (hl : ∀ k, n ≤ k → (run step s pll_locked k).locked = true)

include hl

/-- While the lock is seen the counter counts to its end. -/
theorem counter_while_locked (j : ℕ) : (run step s pll_locked (n + j)).counter.toNat
    = min ((run step s pll_locked n).counter.toNat + j) 65535 := by
  induction j with
  | zero =>
      have hlt := (run step s pll_locked n).counter.isLt
      rw [Nat.add_zero, Nat.add_zero]
      omega
  | succ j ih =>
      rw [← Nat.add_assoc, run_succ]
      by_cases ht : (run step s pll_locked (n + j)).terminal = true
      · -- the counter stays at its end
        have hlocked := hl (n + j) (Nat.le_add_right n j)
        have hend := (terminal_iff _).mp ht
        simp only [step, ht, hlocked, if_true, Bool.not_true, Bool.false_eq_true, if_false]
        omega
      · rw [terminal_iff] at ht
        rw [toNat_step_counter (by omega), ih]
        omega

theorem terminal_while_locked {k : ℕ} (hk : n + 65535 ≤ k) :
    (run step s pll_locked k).terminal = true := by
  obtain ⟨j, rfl⟩ := Nat.exists_eq_add_of_le (show n ≤ k by omega)
  rw [terminal_iff, counter_while_locked hl]
  omega

end Settles

section Reset

variable {s : SystemMonitor} (h0 : PowerUp s) (pll_locked : ℕ → Bool)

include h0

/-- The system is in reset during the first count. -/
theorem flop_first_count {n : ℕ} (h1 : 1 ≤ n) (hn : n ≤ 65535) :
    (run step s pll_locked n).pll_areset_flop = true := by
  obtain ⟨k, rfl⟩ := Nat.exists_eq_add_of_le' h1
  by_contra hcon
  rw [Bool.not_eq_true, flop_released_iff s pll_locked h0, terminal_iff,
    counter_from_zero h0 pll_locked (by omega)] at hcon
  omega

/-- The reset is released for good 65539 cycles after the lock has come for good. -/
theorem flop_released_of_locked {T n : ℕ} (hlock : ∀ k, T ≤ k → pll_locked k = true)
    (hn : T + 65539 ≤ n) : (run step s pll_locked n).pll_areset_flop = false := by
  obtain ⟨k, rfl⟩ := Nat.exists_eq_add_of_le' (show 1 ≤ n by omega)
  have hseen : ∀ j, T + 3 ≤ j → (run step s pll_locked j).locked = true := by
    intro j hj
    obtain ⟨i, rfl⟩ := Nat.exists_eq_add_of_le' (show 3 ≤ j by omega)
    rw [locked_sampled]
    exact hlock i (by omega)
  rw [flop_released_iff s pll_locked h0]
  exact terminal_while_locked hseen (by omega)

end Reset

end SystemMonitor

/-- The last of some numbers that are bounded. -/
theorem exists_last {P : ℕ → Prop} [DecidablePred P] {n b : ℕ} (hn : P n)
    (hb : ∀ k, b ≤ k → ¬ P k) : ∃ t, P t ∧ ∀ k, t < k → ¬ P k := by
  have hnb : n ≤ b := by
    by_contra hcon
    exact hb n (by omega) hn
  refine ⟨Nat.findGreatest P b, Nat.findGreatest_spec hnb hn, fun k hk => ?_⟩
  rcases Nat.lt_or_ge b k with hlt | hle
  · exact hb k hlt.le
  · exact Nat.findGreatest_is_greatest hk hle

/-! ## The two clock domains -/

namespace SdrFpga

variable {lpm_mult : LpmMult 16} {altsqrt : AltSqrt 16}

/-- `monitor0` and its inputs: edge `n` of `system_clock` comes after `elapsed n` edges of
`clock_osc`. -/
structure Resets where
  monitor0 : SystemMonitor
  sync_reset : SystemMonitor.SyncReset
  pll_locked : ℕ → Bool
  elapsed : ℕ → ℕ
  elapsed_mono : Monotone elapsed
  elapsed_unbounded : ∀ i, ∃ n, i ≤ elapsed n

namespace Resets

/-- The flop that `system_clock` samples on edge `n`. -/
def flop (R : Resets) (n : ℕ) : Bool :=
  (run SystemMonitor.step R.monitor0 R.pll_locked (R.elapsed n)).pll_areset_flop

/-- `system_clock_sreset` on edge `n` of `system_clock`. -/
def system_clock_sreset (R : Resets) (n : ℕ) : Bool :=
  (run SystemMonitor.SyncReset.step R.sync_reset R.flop n).pll_sreset

theorem system_clock_sreset_eq (R : Resets) (n : ℕ) : R.system_clock_sreset (n + 4) = R.flop n :=
  SystemMonitor.SyncReset.pll_sreset_sampled R.sync_reset R.flop n

/-- The inputs `u` with this reset. -/
def drive (R : Resets) (u : ℕ → Ports) (n : ℕ) : Ports :=
  { u n with system_clock_sreset := R.system_clock_sreset n }

end Resets

/-- **The receiver comes up.** From power-up, with any contents of the registers but for the counter
of `system_monitor`, any ratio of the two clocks that lets `system_clock` tick once during the first
count, and a PLL that is locked from some cycle `T` on, however often it has lost the lock before:
there is a last edge in reset, at most four edges after 65539 more cycles, and from the twelfth
decimation step after it on every sample is played in sixteen periods of the audio output. -/
theorem sdr_comes_up (hmult : lpm_mult.HasLatency 2 (signedProduct 16))
    (hsqrt : altsqrt.HasLatency 8 (floorSqrt 16)) (R : Resets) (h0 : R.monitor0.PowerUp)
    (hfirst : ∃ n, 1 ≤ R.elapsed n ∧ R.elapsed n ≤ 65535) {T : ℕ}
    (hlock : ∀ i, T ≤ i → R.pll_locked i = true) (s : SdrFpga lpm_mult altsqrt) (u : ℕ → Ports) :
    ∃ t, R.system_clock_sreset t = true ∧
      (∀ n, t < n → R.system_clock_sreset n = false) ∧
      (∀ n, T + 65539 ≤ R.elapsed n → t < n + 4) ∧
      let s' := run step s (R.drive u) (t + 1)
      let v := fun n => R.drive u (t + 1 + n)
      ∀ p k, 11 ≤ p → 16 * p < k → k ≤ 16 * p + 16 →
        Nat.count (fun j => (run step s (R.drive u) (t + 1 + (256 * k + j + 1))).audio = true) 256
          = 255 - AmDemod.magnitude (iSample s' v p) (qSample s' v p) / 256 := by
  obtain ⟨n₀, h1, hn₀⟩ := hfirst
  obtain ⟨n₁, hn₁⟩ := R.elapsed_unbounded (T + 65539)
  have hin : R.system_clock_sreset (n₀ + 4) = true := by
    rw [R.system_clock_sreset_eq]
    exact SystemMonitor.flop_first_count h0 R.pll_locked h1 hn₀
  have hout : ∀ n m, T + 65539 ≤ R.elapsed n → n + 4 ≤ m → ¬ R.system_clock_sreset m = true := by
    intro n m hn hm
    obtain ⟨j, rfl⟩ := Nat.exists_eq_add_of_le hm
    have hlater : T + 65539 ≤ R.elapsed (n + j) :=
      hn.trans (R.elapsed_mono (Nat.le_add_right n j))
    rw [show n + 4 + j = n + j + 4 by omega, R.system_clock_sreset_eq, Bool.not_eq_true]
    exact SystemMonitor.flop_released_of_locked h0 R.pll_locked hlock hlater
  obtain ⟨t, ht, hlast⟩ := exists_last hin (fun k => hout n₁ k hn₁)
  refine ⟨t, ht, fun n hn => Bool.eq_false_of_not_eq_true (hlast n hn), ?_, ?_⟩
  · intro n hn
    by_contra hcon
    exact hout n t hn (by omega) ht
  · intro s' v p k hp hlow hhigh
    have hs : InReset s' := inReset_step (run step s (R.drive u) t) ht
    have hv : ∀ n, (v n).system_clock_sreset = false := fun n =>
      Bool.eq_false_of_not_eq_true (hlast (t + 1 + n) (by omega))
    simp only [run_add step s (R.drive u) (t + 1)]
    exact count_audio hs hv hmult hsqrt hp hlow hhigh

/-- Equal clocks, and a PLL that misses the first terminal count. -/
def lateLock : Resets where
  monitor0 := SystemMonitor.poweredUp
  sync_reset := { sreset_meta := 5, pll_sreset := false }
  pll_locked n := decide (70000 ≤ n)
  elapsed n := n
  elapsed_mono := monotone_id
  elapsed_unbounded i := ⟨i, le_refl i⟩

theorem sdr_comes_up_late : ∃ t < 135543, lateLock.system_clock_sreset t = true ∧
    ∀ n, t < n → lateLock.system_clock_sreset n = false := by
  obtain ⟨t, ht, hlast, hbound, -⟩ := sdr_comes_up (pipeline_hasLatency 1 _)
    (pipeline_hasLatency 7 _) lateLock rfl ⟨1, le_refl 1, by decide⟩ (T := 70000)
    (fun i hi => decide_eq_true hi) interrupted (squareWave false)
  exact ⟨t, hbound 135539 (le_refl 135539), ht, hlast⟩

end SdrFpga

end OneBitSDR
