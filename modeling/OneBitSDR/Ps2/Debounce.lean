import OneBitSDR.Clocked.Component
import OneBitSDR.Clocked.Counter
import OneBitSDR.Clocked.Since
import Mathlib.Data.Nat.Log

set_option autoImplicit false

/-! # `debounce.sv`

The input passes through the flops of `meta_sample`, and a counter measures for how long two
neighbouring samples have agreed. The output is valid after an edge exactly if the last
`CYCLES + 1` samples are equal, and is their value then. The first samples after a reset are
what the reset and the flops hold.
-/

namespace OneBitSDR

open Clocked

/-- `CYCLES`, for parameters whose product is an `int`. -/
def debounceCycles (SYSTEM_CLOCK DELAY_US : ℕ) : ℕ := SYSTEM_CLOCK * DELAY_US / 1000000

/-- `CYCLES` as it is elaborated, in `int` arithmetic. -/
def debounceCyclesInt (SYSTEM_CLOCK DELAY_US : BitVec 32) : BitVec 32 :=
  (SYSTEM_CLOCK * DELAY_US).sdiv 1000000

theorem toNat_debounceCyclesInt {SYSTEM_CLOCK DELAY_US : ℕ}
    (h : SYSTEM_CLOCK * DELAY_US < 2 ^ 31) :
    (debounceCyclesInt (BitVec.ofNat 32 SYSTEM_CLOCK) (BitVec.ofNat 32 DELAY_US)).toNat
      = debounceCycles SYSTEM_CLOCK DELAY_US := by
  have hproduct : (BitVec.ofNat 32 (SYSTEM_CLOCK * DELAY_US)).toNat = SYSTEM_CLOCK * DELAY_US := by
    rw [BitVec.toNat_ofNat, Nat.mod_eq_of_lt (by omega)]
  have hmsb : (BitVec.ofNat 32 (SYSTEM_CLOCK * DELAY_US)).msb = false := by
    rw [BitVec.msb_eq_false_iff_two_mul_lt, hproduct]
    omega
  -- the sign plays no part in the division
  calc (debounceCyclesInt (BitVec.ofNat 32 SYSTEM_CLOCK) (BitVec.ofNat 32 DELAY_US)).toNat
      = ((BitVec.ofNat 32 (SYSTEM_CLOCK * DELAY_US)).udiv 1000000).toNat := by
        rw [debounceCyclesInt, ← BitVec.ofNat_mul, BitVec.sdiv_eq, hmsb,
          show (1000000 : BitVec 32).msb = false by decide]
    _ = SYSTEM_CLOCK * DELAY_US / 1000000 := by
        rw [BitVec.udiv_eq, BitVec.toNat_udiv, hproduct]
        rfl

/-- The registers of `debounce`, with `WIDTHM = 3` and `WIDTHC = $clog2(CYCLES)`. -/
structure Debounce (CYCLES : ℕ) where
  counter : BitVec (Nat.clog 2 CYCLES)
  meta_sample : BitVec 3
  in_reg : Bool
  last_in_reg : Bool
  out : Bool
  valid_out : Bool

namespace Debounce

/-- The input ports; `dontcare` is the value a reset leaves in `out`. -/
structure Ports where
  clock_sreset : Bool
  line : Bool
  dontcare : Bool

variable {C : ℕ}

/-- `CYCLES[WIDTHC-1:0] - ONE[WIDTHC-1:0]`. -/
def last (CYCLES : ℕ) : BitVec (Nat.clog 2 CYCLES) :=
  BitVec.ofNat _ CYCLES - BitVec.ofNat _ 1

/-- One rising edge of `clock`. -/
def step (s : Debounce C) (i : Ports) : Debounce C :=
  -- the flops that sample the line are not reset
  let s' := { s with meta_sample := shiftIn s.meta_sample i.line }
  if i.clock_sreset then
    { s' with
      counter := 0, last_in_reg := false, in_reg := false, valid_out := false, out := i.dontcare }
  else
    let s' := { s' with in_reg := s.meta_sample.getLsbD 2, last_in_reg := s.in_reg }
    if s.last_in_reg = s.in_reg then
      if last C ≤ s.counter then { s' with valid_out := true, out := s.in_reg }
      else { s' with valid_out := false, counter := s.counter + 1 }
    else { s' with valid_out := false, counter := 0 }

/-- What a reset leaves. -/
structure Cleared (s : Debounce C) : Prop where
  counter : s.counter = 0
  in_reg : s.in_reg = false
  last_in_reg : s.last_in_reg = false
  valid_out : s.valid_out = false

theorem cleared_step (s : Debounce C) {i : Ports} (h : i.clock_sreset = true) :
    (step s i).Cleared := by
  unfold step
  rw [h]
  exact ⟨rfl, rfl, rfl, rfl⟩

/-! ## One edge -/

section Step

variable {s : Debounce C} {i : Ports}

theorem step_meta_sample : (step s i).meta_sample = shiftIn s.meta_sample i.line := by
  unfold step
  dsimp only
  split_ifs <;> rfl

theorem step_in_reg (h : i.clock_sreset = false) :
    (step s i).in_reg = s.meta_sample.getLsbD 2 := by
  unfold step
  simp only [h, Bool.false_eq_true, if_false]
  split_ifs <;> rfl

theorem step_last_in_reg (h : i.clock_sreset = false) : (step s i).last_in_reg = s.in_reg := by
  unfold step
  simp only [h, Bool.false_eq_true, if_false]
  split_ifs <;> rfl

theorem step_counter (h : i.clock_sreset = false) :
    (step s i).counter
      = if s.last_in_reg = s.in_reg then
          (if last C ≤ s.counter then s.counter else s.counter + 1)
        else 0 := by
  unfold step
  simp only [h, Bool.false_eq_true, if_false]
  split_ifs <;> rfl

theorem step_valid_out (h : i.clock_sreset = false) :
    (step s i).valid_out = true ↔ s.last_in_reg = s.in_reg ∧ last C ≤ s.counter := by
  unfold step
  simp only [h, Bool.false_eq_true, if_false]
  by_cases heq : s.last_in_reg = s.in_reg
  · by_cases hend : last C ≤ s.counter <;> simp [heq, hend]
  · simp [heq]

theorem step_out_hold (h : i.clock_sreset = false) (hv : (step s i).valid_out = false) :
    (step s i).out = s.out := by
  have hnot : ¬ (s.last_in_reg = s.in_reg ∧ last C ≤ s.counter) := by
    rw [← step_valid_out h, hv]
    exact Bool.false_ne_true
  unfold step
  simp only [h, Bool.false_eq_true, if_false]
  by_cases heq : s.last_in_reg = s.in_reg
  · have hend : ¬ last C ≤ s.counter := fun hend => hnot ⟨heq, hend⟩
    rw [if_pos heq, if_neg hend]
  · rw [if_neg heq]

theorem step_out (h : i.clock_sreset = false) (hv : (step s i).valid_out = true) :
    (step s i).out = s.in_reg := by
  obtain ⟨heq, hend⟩ := (step_valid_out h).mp hv
  unfold step
  simp only [h, Bool.false_eq_true, if_false, if_pos heq, if_pos hend]

end Step

theorem toNat_last (h : 2 ≤ C) : (last C).toNat = C - 1 := toNat_terminal h

/-! ## The samples -/

/-- The stream that moves through the registers: `last_in_reg`, `in_reg` and the flops, and
behind them the line. -/
def samples (s : Debounce C) (u : ℕ → Ports) : ℕ → Bool
  | 0 => s.last_in_reg
  | 1 => s.in_reg
  | 2 => s.meta_sample.getLsbD 2
  | 3 => s.meta_sample.getLsbD 1
  | 4 => s.meta_sample.getLsbD 0
  | k + 5 => (u k).line

section Run

variable (s : Debounce C) (u : ℕ → Ports)

/-- Bit 2 of the flops is the sample to be loaded next. -/
theorem run_meta_sample (n : ℕ) :
    (run step s u n).meta_sample.getLsbD 2 = samples s u (n + 2) := by
  have hmeta : (run step s u n).meta_sample
      = run shiftIn s.meta_sample (fun k => (u k).line) n :=
    run_proj Debounce.meta_sample (fun _ i => i.line) (fun _ _ => step_meta_sample) s u n
  rw [hmeta]
  match n with
  | 0 => rfl
  | 1 => exact shiftIn_initial _ _ 1 1 (by omega)
  | 2 => exact shiftIn_initial _ _ 2 0 (by omega)
  | k + 3 => exact shiftIn_bit _ _ k 2 (by omega)

variable {s u} (hu : ∀ k, (u k).clock_sreset = false)

include hu

theorem run_in_reg (n : ℕ) : (run step s u n).in_reg = samples s u (n + 1) := by
  cases n with
  | zero => rfl
  | succ n => rw [run_succ, step_in_reg (hu n), run_meta_sample]

theorem run_last_in_reg (n : ℕ) : (run step s u n).last_in_reg = samples s u n := by
  cases n with
  | zero => rfl
  | succ n => rw [run_succ, step_last_in_reg (hu n), run_in_reg hu n]

/-- The counter is the length of the streak, up to its last value. -/
theorem toNat_run_counter (hC : 2 ≤ C) (h0 : s.Cleared) (n : ℕ) :
    (run step s u n).counter.toNat = min (streak (samples s u) n) (C - 1) := by
  have hlast := toNat_last hC
  have hfits := (last C).isLt
  rw [hlast] at hfits
  induction n with
  | zero =>
      rw [run_zero, h0.counter]
      simp [streak]
  | succ n ih =>
      rw [run_succ, step_counter (hu n), streak, run_last_in_reg hu n, run_in_reg hu n]
      by_cases heq : samples s u n = samples s u (n + 1)
      · rw [if_pos heq, if_pos heq]
        by_cases hend : last C ≤ (run step s u n).counter
        · -- the counter stays at its last value
          rw [if_pos hend]
          rw [BitVec.le_def, hlast] at hend
          omega
        · rw [if_neg hend]
          rw [BitVec.le_def, hlast] at hend
          have hone : (1 : BitVec (Nat.clog 2 C)).toNat = 1 := by
            show 1 % 2 ^ Nat.clog 2 C = 1
            exact Nat.mod_eq_of_lt (by omega)
          rw [BitVec.toNat_add, hone, Nat.mod_eq_of_lt (by omega)]
          omega
      · rw [if_neg heq, if_neg heq]
        simp

/-- **The debouncer.** The output is valid exactly after a streak of `CYCLES`, -/
theorem run_valid_out (hC : 2 ≤ C) (h0 : s.Cleared) (n : ℕ) :
    (run step s u n).valid_out = true ↔ C ≤ streak (samples s u) n := by
  cases n with
  | zero =>
      rw [run_zero, h0.valid_out]
      simp only [Bool.false_eq_true, false_iff, streak]
      omega
  | succ n =>
      have hcount := toNat_run_counter hu hC h0 n
      rw [run_succ, step_valid_out (hu n), run_last_in_reg hu n, run_in_reg hu n, BitVec.le_def,
        toNat_last hC, hcount, streak]
      by_cases heq : samples s u n = samples s u (n + 1)
      · rw [if_pos heq]
        simp only [heq, true_and]
        omega
      · rw [if_neg heq]
        simp only [heq, false_and, false_iff]
        omega

/-- and is the value of the streak. -/
theorem run_out (h0 : s.Cleared) {n : ℕ} (h : (run step s u n).valid_out = true) :
    (run step s u n).out = samples s u n := by
  cases n with
  | zero =>
      rw [run_zero, h0.valid_out] at h
      cases h
  | succ n => rw [run_succ, step_out (hu n) h, run_in_reg hu n]

/-- A valid output is the value of the last `CYCLES + 1` samples. -/
theorem streak_of_valid (hC : 2 ≤ C) (h0 : s.Cleared) {n : ℕ}
    (h : (run step s u n).valid_out = true) :
    C ≤ n ∧ ∀ j, n ≤ j + C → j ≤ n → samples s u j = (run step s u n).out := by
  have hstreak := (le_streak_iff _ _ _).mp ((run_valid_out hu hC h0 n).mp h)
  refine ⟨hstreak.1, ?_⟩
  intro j hj hjn
  rw [hstreak.2 j hj hjn, run_out hu h0 h]

end Run

/-! ## The output after a reset -/

/-- What the reset leaves in `last_in_reg`, and then what `in_reg` holds after each edge. -/
def loaded (s : Debounce C) (u : ℕ → Ports) : ℕ → Bool
  | 0 => s.last_in_reg
  | j + 1 => (run step s u j).in_reg

section Output

variable {s : Debounce C} {u : ℕ → Ports} (hu : ∀ k, (u k).clock_sreset = false)

include hu

theorem loaded_eq_samples (j : ℕ) : loaded s u j = samples s u j := by
  cases j with
  | zero => rfl
  | succ j => exact run_in_reg hu j

theorem run_valid_out_loaded (hC : 2 ≤ C) (h0 : s.Cleared) (k : ℕ) :
    (run step s u k).valid_out = true
      ↔ C ≤ k ∧ ∀ j, k - C ≤ j → j ≤ k → loaded s u j = loaded s u k := by
  rw [run_valid_out hu hC h0 k, le_streak_iff]
  simp only [loaded_eq_samples hu]
  constructor
  · rintro ⟨hk, hall⟩
    exact ⟨hk, fun j hj hjk => hall j (by omega) hjk⟩
  · rintro ⟨hk, hall⟩
    exact ⟨hk, fun j hj hjk => hall j (by omega) hjk⟩

theorem run_out_hold {k : ℕ} (h : (run step s u (k + 1)).valid_out = false) :
    (run step s u (k + 1)).out = (run step s u k).out := by
  rw [run_succ] at h ⊢
  exact step_out_hold (hu k) h

/-- A pulse of at most `CYCLES` samples passes without a trace in `out`. -/
theorem run_out_pulse (hC : 2 ≤ C) (h0 : s.Cleared) {v : Bool} {a b : ℕ} (ha : 0 < a)
    (hb : b ≤ a + C) (hbefore : loaded s u (a - 1) = !v)
    (hpulse : ∀ j, a ≤ j → j < b → loaded s u j = v) {n : ℕ} (han : a ≤ n) (hnb : n < b) :
    (run step s u n).valid_out = false ∧ (run step s u n).out = (run step s u (a - 1)).out := by
  have hinvalid : ∀ k, a ≤ k → k < b → (run step s u k).valid_out = false := by
    intro k hak hkb
    by_contra hvalid
    rw [Bool.not_eq_false] at hvalid
    obtain ⟨hk, hall⟩ := (run_valid_out_loaded hu hC h0 k).mp hvalid
    -- the sample before the pulse is among the last ones
    have heq := hall (a - 1) (by omega) (by omega)
    rw [hbefore, hpulse k hak hkb] at heq
    exact Bool.not_ne_self v heq
  refine ⟨hinvalid n han hnb, ?_⟩
  refine run_hold Debounce.out (by omega) ?_
  intro k hk hkn
  exact run_out_hold hu (hinvalid (k + 1) (by omega) (by omega))

end Output

/-- **What the debouncer does.** For parameters whose product is an `int`, and from any reset on:
the samples are the line, five clocks late; `out` is valid after an edge exactly if the last
`CYCLES + 1` samples are equal, and takes their value then; it does not change otherwise, so that no
shorter pulse reaches it. -/
theorem debounced (SYSTEM_CLOCK DELAY_US : ℕ) (hint : SYSTEM_CLOCK * DELAY_US < 2 ^ 31)
    (hC : 2 ≤ debounceCycles SYSTEM_CLOCK DELAY_US)
    (s : Debounce (debounceCycles SYSTEM_CLOCK DELAY_US)) (r : Ports) (u : ℕ → Ports)
    (hr : r.clock_sreset = true) (hu : ∀ k, (u k).clock_sreset = false) :
    (debounceCyclesInt (BitVec.ofNat 32 SYSTEM_CLOCK) (BitVec.ofNat 32 DELAY_US)).toNat
      = debounceCycles SYSTEM_CLOCK DELAY_US ∧
    loaded (step s r) u 0 = false ∧ loaded (step s r) u 1 = false ∧
    (∀ k, loaded (step s r) u (k + 5) = (u k).line) ∧
    (∀ k, (run step (step s r) u k).valid_out = true ↔
      debounceCycles SYSTEM_CLOCK DELAY_US ≤ k ∧
        ∀ j, k - debounceCycles SYSTEM_CLOCK DELAY_US ≤ j → j ≤ k →
          loaded (step s r) u j = loaded (step s r) u k) ∧
    (∀ k, (run step (step s r) u k).valid_out = true →
      (run step (step s r) u k).out = loaded (step s r) u k) ∧
    (∀ k, (run step (step s r) u (k + 1)).valid_out = false →
      (run step (step s r) u (k + 1)).out = (run step (step s r) u k).out) ∧
    (∀ (v : Bool) (a b : ℕ), 0 < a → b < a + (debounceCycles SYSTEM_CLOCK DELAY_US + 1) →
      loaded (step s r) u (a - 1) = !v →
      (∀ j, a ≤ j → j < b → loaded (step s r) u j = v) →
      ∀ n, a ≤ n → n < b →
        (run step (step s r) u n).valid_out = false ∧
        (run step (step s r) u n).out = (run step (step s r) u (a - 1)).out) := by
  have h0 := cleared_step s hr
  refine ⟨toNat_debounceCyclesInt hint, h0.last_in_reg, h0.in_reg,
    fun k => loaded_eq_samples hu (k + 5), run_valid_out_loaded hu hC h0, ?_,
    fun k => run_out_hold hu, ?_⟩
  · intro k hvalid
    rw [run_out hu h0 hvalid, loaded_eq_samples hu]
  · intro v a b ha hb hbefore hpulse n han hnb
    exact run_out_pulse hu hC h0 ha (by omega) hbefore hpulse han hnb

/-- Registers that have sampled a high line. -/
def sampledHigh (C : ℕ) : Debounce C where
  counter := 0
  meta_sample := 7
  in_reg := true
  last_in_reg := true
  out := false
  valid_out := false

/-- The line stays high. -/
def high (clock_sreset : Bool) : Ports where
  clock_sreset := clock_sreset
  line := true
  dontcare := false

/-- Four cycles, for which the counter has two bits: the output is valid after six edges. -/
theorem debounced_high :
    (run step (step (sampledHigh (debounceCycles 1000000 4)) (high true)) (fun _ => high false)
      6).valid_out = true ∧
    (run step (step (sampledHigh (debounceCycles 1000000 4)) (high true)) (fun _ => high false)
      6).out = true := by
  have hspec := debounced 1000000 4 (by decide) (by decide) (sampledHigh _) (high true)
    (fun _ => high false) rfl (fun _ => rfl)
  have hsamples : ∀ j, 2 ≤ j → j ≤ 6 →
      loaded (step (sampledHigh (debounceCycles 1000000 4)) (high true)) (fun _ => high false) j
        = true := by
    intro j hj hj6
    interval_cases j <;> decide
  have hvalid := (hspec.2.2.2.2.1 6).mpr ⟨by decide, fun j hj hj6 => by
    rw [hsamples j hj hj6, hsamples 6 (by omega) (le_refl 6)]⟩
  refine ⟨hvalid, ?_⟩
  rw [hspec.2.2.2.2.2.1 6 hvalid]
  exact hsamples 6 (by omega) (le_refl 6)

end Debounce

end OneBitSDR
