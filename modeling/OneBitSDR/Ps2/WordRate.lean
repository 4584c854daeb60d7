import OneBitSDR.Ps2.Receive

set_option autoImplicit false

/-! # How often the PS/2 receiver can announce a word

The debouncers need `CYCLES + 1` equal samples for each level of the clock that the state machine
sees. A word takes eleven low and eleven high levels, so the words are that far apart whatever is
on the lines, noise included.
-/

namespace OneBitSDR

open Clocked

namespace Ps2Fsm

/-- Two different levels of the clock are seen more than `C` clocks apart. -/
def Slow (C : ℕ) (v : ℕ → View) : Prop :=
  ∀ j k c d d', j < k → v j = some (c, d) → v k = some (!c, d') → j + C + 1 ≤ k

/-- The level `c` of the clock was seen at or after the clock `t`, and before `n`. -/
def SeenSince (v : ℕ → View) (c : Bool) (t n : ℕ) : Prop := ∃ k d, t ≤ k ∧ k < n ∧ v k = some (c, d)

/-- How far the machine can be with its next word, if clock `e` announced one: each level of the
clock has cost `C + 1` clocks. -/
inductive Paced (C : ℕ) (v : ℕ → View) (e n : ℕ) (m : Ps2Fsm) : Prop
  | waiting (hfsm : m.fsm = .S1) (hvalid : m.data_valid = true → e + 21 * (C + 1) + 2 ≤ n)
  | armed (i : ℕ) (hfsm : m.fsm = .S2) (hquiet : m.data_valid = false)
      (hcount : m.counter.toNat = i) (hseen : SeenSince v false (e + 2 * i * (C + 1)) n)
  | taken (i : ℕ) (hfsm : m.fsm = .S3) (hquiet : m.data_valid = false)
      (hcount : m.counter.toNat = i + 1) (hi : i < 10)
      (hseen : SeenSince v true (e + (2 * i + 1) * (C + 1)) n)
  | complete (hfsm : m.fsm = .S4) (hquiet : m.data_valid = false)
      (hseen : SeenSince v true (e + 21 * (C + 1)) n)

section Steps

variable {C : ℕ} {v : ℕ → View} {e n : ℕ} {m : Ps2Fsm}

theorem SeenSince.later {c : Bool} {t : ℕ} (h : SeenSince v c t n) : SeenSince v c t (n + 1) := by
  obtain ⟨k, d, htk, hkn, hk⟩ := h
  exact ⟨k, d, htk, Nat.lt_succ_of_lt hkn, hk⟩

/-- A level seen now, after the other one. -/
theorem SeenSince.change {c d : Bool} {t t' : ℕ} (h : SeenSince v c t n) (hv : Slow C v)
    (hn : v n = some (!c, d)) (ht : t' ≤ t + (C + 1)) : SeenSince v (!c) t' (n + 1) := by
  obtain ⟨k, d', htk, hkn, hk⟩ := h
  have hfar := hv k n c d' d hkn hk hn
  exact ⟨n, d, by omega, Nat.lt_succ_self n, hn⟩

/-- A machine in `S1` starts a word or goes on waiting. -/
theorem paced_of_S1 (hfsm : m.fsm = .S1) (hen : e ≤ n) : Paced C v e (n + 1) (m.step (v n)) := by
  cases hview : v n with
  | none => exact .waiting hfsm (fun h => by cases h)
  | some view =>
      rcases view with ⟨c, d⟩
      rw [step_S1 hfsm]
      by_cases hstart : (!c && !d) = true
      · rw [if_pos hstart]
        rw [Bool.and_eq_true, Bool.not_eq_true', Bool.not_eq_true'] at hstart
        exact .armed 0 rfl rfl rfl ⟨n, d, by omega, Nat.lt_succ_self n, by rw [hview, hstart.1]⟩
      · rw [if_neg hstart]
        exact .waiting rfl (fun h => by cases h)

/-- **One clock.** Every level of the clock keeps the pace. -/
theorem Paced.step (hv : Slow C v) (hen : e ≤ n) (h : Paced C v e n m) :
    Paced C v e (n + 1) (m.step (v n)) := by
  cases h with
  | waiting hfsm hvalid => exact paced_of_S1 hfsm hen
  | armed i hfsm hquiet hcount hseen =>
      cases hview : v n with
      | none => exact .armed i hfsm rfl hcount hseen.later
      | some view =>
          rcases view with ⟨c, d⟩
          cases c with
          | false =>
              rw [step_S2_low hfsm]
              exact .armed i hfsm hquiet hcount hseen.later
          | true =>
              -- a bit is taken
              have htaken : SeenSince v true (e + (2 * i + 1) * (C + 1)) (n + 1) :=
                hseen.change hv hview (by
                  rw [Nat.add_mul (2 * i), Nat.one_mul, ← Nat.add_assoc])
              rw [step_S2_high hfsm]
              by_cases hlast : 10 ≤ m.counter.toNat
              · rw [if_pos hlast]
                have hle : 21 * (C + 1) ≤ (2 * i + 1) * (C + 1) :=
                  Nat.mul_le_mul_right _ (by omega)
                obtain ⟨k, d', hk, hkn, hvk⟩ := htaken
                exact .complete rfl hquiet ⟨k, d', by omega, hkn, hvk⟩
              · rw [if_neg hlast]
                refine .taken i rfl hquiet ?_ (by omega) htaken
                dsimp only
                rw [BitVec.toNat_add, hcount]
                show (i + 1) % 2 ^ 4 = i + 1
                omega
  | taken i hfsm hquiet hcount hi hseen =>
      cases hview : v n with
      | none => exact .taken i hfsm rfl hcount hi hseen.later
      | some view =>
          rcases view with ⟨c, d⟩
          cases c with
          | false =>
              rw [step_S3_low hfsm]
              refine .armed (i + 1) rfl hquiet hcount (hseen.change hv hview ?_)
              rw [show 2 * (i + 1) = 2 * i + 1 + 1 by omega, Nat.add_mul (2 * i + 1), Nat.one_mul,
                ← Nat.add_assoc]
          | true =>
              rw [step_S3_high hfsm]
              exact .taken i hfsm hquiet hcount hi hseen.later
  | complete hfsm hquiet hseen =>
      cases hview : v n with
      | none => exact .complete hfsm rfl hseen.later
      | some view =>
          rcases view with ⟨c, d⟩
          obtain ⟨k, d', hk, hkn, -⟩ := hseen
          rw [step_S4 hfsm]
          exact .waiting rfl (fun _ => by omega)

/-- A word is announced in `S1` only. -/
theorem fsm_of_valid (h : m.fsm ≠ .S1 → m.data_valid = false) (w : View) :
    (m.step w).fsm ≠ .S1 → (m.step w).data_valid = false := by
  cases w with
  | none => exact fun _ => rfl
  | some view =>
      rcases view with ⟨c, d⟩
      intro hne
      cases hfsm : m.fsm with
      | S1 =>
          rw [step_S1 hfsm]
      | S4 =>
          rw [step_S4 hfsm] at hne
          exact absurd rfl hne
      | S2 =>
          have hquiet := h (by rw [hfsm]; decide)
          unfold Ps2Fsm.step
          rw [hfsm]
          dsimp only
          split_ifs <;> exact hquiet
      | S3 | S5 | S6 | S7 | S8 =>
          have hquiet := h (by rw [hfsm]; decide)
          unfold Ps2Fsm.step
          rw [hfsm]
          exact hquiet

end Steps

end Ps2Fsm

namespace Ps2Receive

variable {C : ℕ} {s : Ps2Receive C} {u : ℕ → Ports}

/-- The debouncers keep two levels of the clock apart. -/
theorem slow_view (hC : 2 ≤ C) (hs : s.clk.Cleared) (hu : ∀ k, (u k).clock_sreset = false) :
    Ps2Fsm.Slow C (fun k => (run step s u k).view) := by
  intro j k c d d' hjk hj hk
  by_contra hnear
  have hsample := (view_clk hC hs hu hj).2 j (by omega) (le_refl j)
  rw [(view_clk hC hs hu hk).2 j (by omega) (by omega)] at hsample
  cases c <;> cases hsample

/-- From a clock in `S1` on the machine keeps the pace. -/
theorem paced_run (hC : 2 ≤ C) (hs : s.clk.Cleared) (hu : ∀ k, (u k).clock_sreset = false) {e : ℕ}
    (hS1 : (run step s u e).regs.fsm = .S1) (k : ℕ) :
    Ps2Fsm.Paced C (fun k => (run step s u k).view) e (e + 1 + k)
      (run step s u (e + 1 + k)).regs := by
  induction k with
  | zero =>
      rw [Nat.add_zero, run_succ, step_regs (hu e)]
      exact Ps2Fsm.paced_of_S1 (v := fun k => (run step s u k).view) hS1 (le_refl e)
  | succ k ih =>
      rw [← Nat.add_assoc, run_succ, step_regs (hu _)]
      exact ih.step (slow_view hC hs hu) (by omega)

/-- The next word after such a clock. -/
theorem valid_after (hC : 2 ≤ C) (hs : s.clk.Cleared) (hu : ∀ k, (u k).clock_sreset = false)
    {e n : ℕ} (hen : e < n) (hS1 : (run step s u e).regs.fsm = .S1)
    (hn : (run step s u n).regs.data_valid = true) : e + 21 * (C + 1) + 2 ≤ n := by
  obtain ⟨k, rfl⟩ := Nat.exists_eq_add_of_le (show e + 1 ≤ n from hen)
  cases paced_run hC hs hu hS1 k with
  | waiting _ hvalid => exact hvalid hn
  | armed _ _ hquiet _ _ => rw [hn] at hquiet; cases hquiet
  | taken _ _ hquiet _ _ _ => rw [hn] at hquiet; cases hquiet
  | complete _ hquiet _ => rw [hn] at hquiet; cases hquiet

/-- A word is announced in `S1`, if none is being announced at the start. -/
theorem fsm_of_data_valid (hs : s.regs.data_valid = false)
    (hu : ∀ k, (u k).clock_sreset = false) {e : ℕ}
    (he : (run step s u e).regs.data_valid = true) : (run step s u e).regs.fsm = .S1 := by
  have hquiet : (run step s u e).regs.fsm ≠ .S1 → (run step s u e).regs.data_valid = false := by
    rw [run_regs hu]
    exact run_invariant (fun _ (m : Ps2Fsm) => m.fsm ≠ .S1 → m.data_valid = false)
      (fun _ => hs) (fun k m h => Ps2Fsm.fsm_of_valid h _) e
  by_contra hne
  rw [hquiet hne] at he
  cases he

/-- **The rate of words.** From any state on, also in the middle of a frame, and after an edge in
reset: between two clocks with `data_valid` lie at least 21 times the `CYCLES + 1` clocks of the
debouncers, whatever the lines do. -/
theorem words_apart {C : ℕ} (hC : 2 ≤ C) (s : Ps2Receive C) {r : Ports}
    (hr : r.clock_sreset = true) (u : ℕ → Ports) (hu : ∀ k, (u k).clock_sreset = false) {e n : ℕ}
    (hen : e < n) (he : (run step (s.step r) u e).regs.data_valid = true)
    (hn : (run step (s.step r) u n).regs.data_valid = true) : e + 21 * (C + 1) + 2 ≤ n := by
  have hclk : (s.step r).clk.Cleared := Debounce.cleared_step _ hr
  have hquiet : (s.step r).regs.data_valid = false := by
    rw [step_reset_regs hr]
    rfl
  exact valid_after hC hclk hu hen (fsm_of_data_valid hquiet hu he) hn

/-! ### A clock that toggles by itself -/

/-- The receiver of two clocks, in the middle of a frame and announcing a word. -/
def disturbed : Ps2Receive 2 where
  clk := { counter := 1, meta_sample := 5, in_reg := true, last_in_reg := false, out := true,
           valid_out := true }
  dat := { counter := 0, meta_sample := 2, in_reg := false, last_in_reg := true, out := false,
           valid_out := false }
  regs := { fsm := .S3, counter := 7, data_valid := true, data_out := 0 }

/-- Three clocks high and three clocks low, with the data low. -/
def toggling (clock_sreset : Bool) (n : ℕ) : Ports where
  clock_sreset := clock_sreset
  ps2_clk := decide (n % 6 < 3)
  ps2_dat := false
  dontcare_clk := false
  dontcare_dat := false
  dontcare := 0

theorem words_apart_toggling :
    (run step (disturbed.step (toggling true 0)) (toggling false) 77).regs.data_valid = true ∧
    (run step (disturbed.step (toggling true 0)) (toggling false) 149).regs.data_valid = true ∧
    77 + 21 * (2 + 1) + 2 ≤ 149 := by
  have hfirst : (run step (disturbed.step (toggling true 0)) (toggling false) 77).regs.data_valid
      = true := by decide +kernel
  have hsecond : (run step (disturbed.step (toggling true 0)) (toggling false) 149).regs.data_valid
      = true := by decide +kernel
  exact ⟨hfirst, hsecond, words_apart (le_refl 2) disturbed (r := toggling true 0) rfl
    (toggling false) (fun _ => rfl) (by omega) hfirst hsecond⟩

end Ps2Receive

end OneBitSDR
