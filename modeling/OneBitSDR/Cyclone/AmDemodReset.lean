import OneBitSDR.Cyclone.AmReceiverEndToEnd

set_option autoImplicit false

/-! # The valid bits of `am_demod` across a reset

A reset of `am_demod` neither clears nor moves the flops of the valid bit, so the bits in flight
when it comes are let out after it. The file says when the pulses after a reset all stem from
inputs after the reset, and when the values on them do.
-/

namespace OneBitSDR

open Clocked Signal

namespace AmDemod

variable {WIDTH : ℕ} {lpm_mult : LpmMult WIDTH} {altsqrt : AltSqrt WIDTH}

/-- A reset on the edges `a, …, b - 1`, and no other before edge `e`. -/
structure ResetWindow (u : ℕ → AmDemodIn WIDTH) (a b e : ℕ) : Prop where
  asserted : a < b
  released : b ≤ e
  reset : ∀ k, a ≤ k → k < b → (u k).clock_sreset = true
  running : ∀ k, b ≤ k → k < e → (u k).clock_sreset = false

/-- After the release, every `demod_valid` is an `in_valid` seen after the release that has
travelled through the ten flops. -/
def PulsesFromAfter (s : AmDemod lpm_mult altsqrt) (u : ℕ → AmDemodIn WIDTH) (b e : ℕ) : Prop :=
  ∀ n, b ≤ n → n ≤ e → (run step s u n).demod_valid = true →
    ∃ k, b ≤ k ∧ n = k + 10 ∧ (u k).in_valid = true

/-- After the release, every value on a `demod_valid` cycle is computed from inputs presented
after the release. -/
def ValuesFromAfter (s : AmDemod lpm_mult altsqrt) (u : ℕ → AmDemodIn WIDTH) (b e : ℕ) : Prop :=
  ∀ n, b ≤ n → n ≤ e → (run step s u n).demod_valid = true →
    ∃ k, b ≤ k ∧ n = k + 11 ∧ (run step s u n).demod.toNat = magnitude (u k).i_in (u k).q_in

/-- No valid bit is in flight that could come out within `m` edges. -/
def Drained (s : AmDemod lpm_mult altsqrt) (m : ℕ) : Prop :=
  ∀ j ≤ 9, j ≤ m → s.inFlight j = false

/-! ## Across the reset -/

/-- A reset holds the valid bits. -/
theorem inFlight_reset {s : AmDemod lpm_mult altsqrt} {u : AmDemodIn WIDTH}
    (h : u.clock_sreset = true) (j : ℕ) : (s.step u).inFlight j = s.inFlight j := by
  cases j with
  | zero => exact step_valid_reset h
  | succ j => rw [inFlight, inFlight, step_pipe_reset h]

section Window

variable {s : AmDemod lpm_mult altsqrt} {u : ℕ → AmDemodIn WIDTH} {a b e : ℕ}

/-- What was in flight when the reset came is in flight when it goes. -/
theorem inFlight_release (h : ResetWindow u a b e) (j : ℕ) :
    (run step s u b).inFlight j = (run step s u a).inFlight j := by
  refine run_hold (fun t : AmDemod lpm_mult altsqrt => t.inFlight j) h.asserted.le ?_
  intro k hak hkb
  exact inFlight_reset (h.reset k hak hkb) j

/-- On the first ten cycles after the release the bits in flight come out. -/
theorem demod_valid_stale (h : ResetWindow u a b e) {j : ℕ} (hj : j ≤ 9) (he : b + j ≤ e) :
    (run step s u (b + j)).demod_valid = (run step s u a).inFlight j := by
  rw [run_add, demod_valid_inFlight hj, inFlight_release h]
  intro k hk
  exact h.running (b + k) (by omega) (by omega)

/-- From then on the inputs after the release come out. -/
theorem demod_valid_fresh (h : ResetWindow u a b e) {k : ℕ} (hk : b ≤ k) (he : k + 10 ≤ e) :
    (run step s u (k + 10)).demod_valid = (u k).in_valid := by
  apply demod_valid_latency
  intro j hj
  exact h.running (k + j) (by omega) (by omega)

/-- The pulses stem from inputs after the release exactly when nothing was in flight. -/
theorem pulsesFromAfter_iff (h : ResetWindow u a b e) :
    PulsesFromAfter s u b e ↔ Drained (run step s u a) (e - b) := by
  constructor
  · intro hpulses j hj hje
    by_contra hbit
    rw [Bool.not_eq_false, ← demod_valid_stale h hj (by have := h.released; omega)] at hbit
    obtain ⟨k, hk, hn, _⟩ := hpulses (b + j) (by omega) (by have := h.released; omega) hbit
    omega
  · intro hdrained n hb he hv
    rcases Nat.lt_or_ge n (b + 10) with hlt | hge
    · obtain ⟨j, rfl⟩ := Nat.exists_eq_add_of_le hb
      rw [demod_valid_stale h (by omega) he, hdrained j (by omega) (by omega)] at hv
      cases hv
    · obtain ⟨k, rfl⟩ := Nat.exists_eq_add_of_le' (show 10 ≤ n by omega)
      rw [demod_valid_fresh h (by omega) he] at hv
      exact ⟨k, by omega, rfl, hv⟩

/-- The values do so exactly when, besides, no input is valid on the first edge after the release:
the valid bit overtakes its data by one clock. -/
theorem valuesFromAfter_iff (hmult : lpm_mult.HasLatency 2 (signedProduct WIDTH))
    (hsqrt : altsqrt.HasLatency 8 (floorSqrt WIDTH)) (h : ResetWindow u a b e) :
    PulsesFromAfter s u b e ∧ ValuesFromAfter s u b e ↔
      Drained (run step s u a) (e - b) ∧ (b + 10 ≤ e → (u b).in_valid = false) := by
  constructor
  · rintro ⟨hpulses, hvalues⟩
    refine ⟨(pulsesFromAfter_iff h).mp hpulses, ?_⟩
    intro he
    by_contra hbit
    rw [Bool.not_eq_false, ← demod_valid_fresh h (le_refl b) he] at hbit
    obtain ⟨k, hk, hn, _⟩ := hvalues (b + 10) (by omega) he hbit
    omega
  · rintro ⟨hdrained, hfirst⟩
    have hpulses := (pulsesFromAfter_iff h).mpr hdrained
    refine ⟨hpulses, ?_⟩
    intro n hb he hv
    obtain ⟨k, hk, rfl, hin⟩ := hpulses n hb he hv
    have hne : k ≠ b := by
      rintro rfl
      rw [hfirst he] at hin
      cases hin
    obtain ⟨i, rfl⟩ := Nat.exists_eq_add_of_le' (show 1 ≤ k by omega)
    refine ⟨i, by omega, rfl, ?_⟩
    exact demod_latency hmult hsqrt i (h.running (i + 2) (by omega) (by omega))

end Window

end AmDemod

/-! ## In the receiver -/

namespace AmReceiver

variable {P : ReceiverParams} {lpm_mult : LpmMult P.WIDTH} {altsqrt : AltSqrt P.WIDTH}

/-- The ports of `demod` along a run of the receiver. -/
def demodInputs (s : AmReceiver P lpm_mult altsqrt) (u : ℕ → AmReceiverIn P) (n : ℕ) :
    AmDemodIn P.WIDTH :=
  (run step s u n).demodPorts (u n)

/-- The reset of the demodulator is that of the filters, so no input is valid on the first edge
after it. -/
theorem first_input_not_valid {s : AmReceiver P lpm_mult altsqrt} {u : ℕ → AmReceiverIn P}
    {a b e : ℕ} (h : AmDemod.ResetWindow (s.demodInputs u) a b e) :
    (s.demodInputs u b).in_valid = false := by
  obtain ⟨m, rfl⟩ := Nat.exists_eq_add_of_lt h.asserted
  have hreset : (run step s u (a + m)).clock_sreset_reg = true :=
    h.reset (a + m) (by omega) (by omega)
  show (run step s u (a + m + 1)).i_cic.data_out_valid = false
  rw [run_succ]
  show (CicFilter.step _ (iPorts _ _)).data_out_valid = false
  simp [CicFilter.step, iPorts, hreset]

/-- **When a reset leaves no stale sample.** For every history before the reset and every length
of it: the pulses of `am_demod` after the release all stem from inputs after it exactly when no
valid bit was in flight that could come out before the next reset. The values on them do exactly
when, besides, no input is valid on the first edge after the release; in the receiver none is. -/
theorem reset_leaves_no_stale_sample_iff (hmult : lpm_mult.HasLatency 2 (signedProduct P.WIDTH))
    (hsqrt : altsqrt.HasLatency 8 (floorSqrt P.WIDTH)) :
    (∀ (s : AmDemod lpm_mult altsqrt) (u : ℕ → AmDemodIn P.WIDTH) (a b e : ℕ),
      AmDemod.ResetWindow u a b e →
      (s.PulsesFromAfter u b e ↔ (run AmDemod.step s u a).Drained (e - b)) ∧
      (s.PulsesFromAfter u b e ∧ s.ValuesFromAfter u b e ↔
        (run AmDemod.step s u a).Drained (e - b) ∧ (b + 10 ≤ e → (u b).in_valid = false))) ∧
    (∀ (s : AmReceiver P lpm_mult altsqrt) (u : ℕ → AmReceiverIn P) (a b e : ℕ),
      AmDemod.ResetWindow (s.demodInputs u) a b e →
      (s.demod.PulsesFromAfter (s.demodInputs u) b e ∧
          s.demod.ValuesFromAfter (s.demodInputs u) b e ↔
        (run step s u a).demod.Drained (e - b))) := by
  constructor
  · intro s u a b e h
    exact ⟨AmDemod.pulsesFromAfter_iff h, AmDemod.valuesFromAfter_iff hmult hsqrt h⟩
  · intro s u a b e h
    rw [AmDemod.valuesFromAfter_iff hmult hsqrt h, run_demod]
    exact and_iff_left (fun _ => first_input_not_valid h)

end AmReceiver

/-! ### A sample in flight -/

namespace AmDemod

/-- `3 + 4 i`, valid on the first clock, and a reset on edge 5. -/
def interrupted (n : ℕ) : AmDemodIn 16 where
  clock_sreset := n == 5
  in_valid := n == 0
  i_in := 3
  q_in := 4
  dontcare := 0

theorem interrupted_window (e : ℕ) (he : 6 ≤ e) : ResetWindow interrupted 5 6 e where
  asserted := by omega
  released := he
  reset k h1 h2 := by
    obtain rfl : k = 5 := by omega
    rfl
  running k h1 _ := by
    have hne : k ≠ 5 := by omega
    simp [interrupted, hne]

/-- The sample comes out five cycles after the release, though no input has been valid since. -/
theorem stale_sample_after_reset :
    ResetWindow interrupted 5 6 11 ∧ (∀ k, 6 ≤ k → (interrupted k).in_valid = false) ∧
      (run step cleared interrupted 11).demod_valid = true ∧
      ¬ PulsesFromAfter cleared interrupted 6 11 := by
  have hvalid : (run step cleared interrupted 11).demod_valid = true := by decide
  have hsilent : ∀ k, 6 ≤ k → (interrupted k).in_valid = false := by
    intro k hk
    have hne : k ≠ 0 := by omega
    simp [interrupted, hne]
  refine ⟨interrupted_window 11 (by omega), hsilent, hvalid, ?_⟩
  intro h
  obtain ⟨k, hk, _, hin⟩ := h 11 (by omega) (le_refl 11) hvalid
  rw [hsilent k hk] at hin
  cases hin

/-- A reset on edge 4, and then `3 + 4 i`, valid in clock 7. -/
def restarted (n : ℕ) : AmDemodIn 16 where
  clock_sreset := n == 4
  in_valid := n == 7
  i_in := 3
  q_in := 4
  dontcare := 0

theorem restarted_window : ResetWindow restarted 4 5 20 where
  asserted := by omega
  released := by omega
  reset k h1 h2 := by
    obtain rfl : k = 4 := by omega
    rfl
  running k h1 _ := by
    have hne : k ≠ 4 := by omega
    simp [restarted, hne]

/-- The first pulse of the receiver after a reset. -/
theorem heldInReset_pulse :
    (run step AmReceiver.heldInReset.demod
      (AmReceiver.heldInReset.demodInputs (fun _ => AmReceiver.constantInput))
      (1 + 4107)).demod_valid = true := by
  have hpulse := AmReceiver.run_demodulated_valid
    (AmReceiver.outOfReset_release (s := AmReceiver.heldInReset) (r := AmReceiver.constantInput)
      rfl rfl rfl) (u := fun _ => AmReceiver.constantInput) (fun _ => rfl) 4106
  unfold AmReceiver.demodInputs
  rw [← AmReceiver.run_demod, run_add]
  exact hpulse.trans (by decide)

/-- Resets without a sample in flight, in the demodulator and in the receiver: the samples of the
inputs after them come out. -/
theorem reset_leaves_no_stale_sample_quiet :
    ((run step cleared restarted 17).demod_valid = true ∧ PulsesFromAfter cleared restarted 5 20) ∧
      (run step AmReceiver.heldInReset.demod
        (AmReceiver.heldInReset.demodInputs (fun _ => AmReceiver.constantInput))
        (1 + 4107)).demod_valid = true ∧
      AmReceiver.heldInReset.demod.PulsesFromAfter
        (AmReceiver.heldInReset.demodInputs (fun _ => AmReceiver.constantInput)) 1 5000 ∧
      AmReceiver.heldInReset.demod.ValuesFromAfter
        (AmReceiver.heldInReset.demodInputs (fun _ => AmReceiver.constantInput)) 1 5000 := by
  have h := AmReceiver.reset_leaves_no_stale_sample_iff (P := sdrReceiver)
    (pipeline_hasLatency 1 (signedProduct 16)) (pipeline_hasLatency 7 (floorSqrt 16))
  have hwindow : ResetWindow (AmReceiver.heldInReset.demodInputs
      (fun _ => AmReceiver.constantInput)) 0 1 5000 := by
    refine ⟨by omega, by omega, ?_, ?_⟩
    · intro k h1 h2
      obtain rfl : k = 0 := by omega
      rfl
    · intro k h1 h2
      obtain ⟨m, rfl⟩ := Nat.exists_eq_add_of_le' h1
      rfl
  refine ⟨⟨by decide, ?_⟩, heldInReset_pulse, ?_⟩
  · exact (h.1 cleared _ 4 5 20 restarted_window).1.mpr (by unfold Drained; decide)
  · refine (h.2 AmReceiver.heldInReset _ 0 1 5000 hwindow).mpr ?_
    intro j hj _
    have hnone : ∀ i ≤ 9, AmReceiver.heldInReset.demod.inFlight i = false := by decide
    exact hnone j hj

end AmDemod

end OneBitSDR
