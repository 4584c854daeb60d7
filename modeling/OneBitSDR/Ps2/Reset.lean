import OneBitSDR.Ps2.Reception

set_option autoImplicit false

/-! # The reset of `ps2_receive`

A reset clears the debouncers and the bit counter and keeps `fsm`. Two receivers that wait for a
start bit when the reset comes cannot be told apart afterwards: what the reset leaves undefined
in `out` and `data_out` is overwritten before it is used. A receiver that is reset in the middle
of a frame goes on with that frame.
-/

namespace OneBitSDR

open Clocked

/-! ## Registers that cannot be told apart -/

/-- Two debouncers that differ at most in an output that is not valid. -/
structure Debounce.Agree {C : ℕ} (s t : Debounce C) : Prop where
  counter : s.counter = t.counter
  meta_sample : s.meta_sample = t.meta_sample
  in_reg : s.in_reg = t.in_reg
  last_in_reg : s.last_in_reg = t.last_in_reg
  valid_out : s.valid_out = t.valid_out
  out : s.valid_out = true → s.out = t.out

/-- Cleared debouncers with equal samples in the flops. -/
theorem Debounce.Cleared.agree {C : ℕ} {s t : Debounce C} (hs : s.Cleared) (ht : t.Cleared)
    (hmeta : s.meta_sample = t.meta_sample) : s.Agree t where
  counter := by rw [hs.counter, ht.counter]
  meta_sample := hmeta
  in_reg := by rw [hs.in_reg, ht.in_reg]
  last_in_reg := by rw [hs.last_in_reg, ht.last_in_reg]
  valid_out := by rw [hs.valid_out, ht.valid_out]
  out := by
    rw [hs.valid_out]
    intro h
    cases h

/-- Equal lines keep the agreement. -/
theorem Debounce.Agree.step {C : ℕ} {s t : Debounce C} (h : s.Agree t) {i j : Debounce.Ports}
    (hi : i.clock_sreset = false) (hj : j.clock_sreset = false) (hline : i.line = j.line) :
    (s.step i).Agree (t.step j) := by
  rcases s with ⟨counter, meta_sample, in_reg, last_in_reg, out, valid_out⟩
  rcases t with ⟨counter', meta_sample', in_reg', last_in_reg', out', valid_out'⟩
  rcases h with ⟨h1, h2, h3, h4, _, _⟩
  dsimp only at h1 h2 h3 h4
  subst h1 h2 h3 h4
  unfold Debounce.step
  rw [hi, hj, hline]
  simp only [Bool.false_eq_true, if_false]
  split_ifs
  · exact ⟨rfl, rfl, rfl, rfl, rfl, fun _ => rfl⟩
  · exact ⟨rfl, rfl, rfl, rfl, rfl, fun hv => by cases hv⟩
  · exact ⟨rfl, rfl, rfl, rfl, rfl, fun hv => by cases hv⟩

namespace Ps2Fsm

/-- Two machines in the same state that have shifted in the same bits of the present frame. -/
structure Agree (m m' : Ps2Fsm) : Prop where
  fsm : m.fsm = m'.fsm
  counter : m.counter = m'.counter
  data_valid : m.data_valid = m'.data_valid
  bits : ∀ j < m.counter.toNat, j < 11 → m.data_out.getLsbD (10 - j) = m'.data_out.getLsbD (10 - j)
  open_frame : m.fsm = .S2 ∨ m.fsm = .S3 → m.counter.toNat ≤ 10
  full_frame : m.fsm = .S4 ∨ m.data_valid = true → 11 ≤ m.counter.toNat

/-- A whole frame of equal bits is an equal word. -/
theorem Agree.data_out {m m' : Ps2Fsm} (h : m.Agree m') (hfull : 11 ≤ m.counter.toNat) :
    m.data_out = m'.data_out := by
  apply BitVec.eq_of_getLsbD_eq
  intro i hi
  have hbit := h.bits (10 - i) (by omega) (by omega)
  rw [show 10 - (10 - i) = i by omega] at hbit
  exact hbit

/-- The machines deliver the same. -/
theorem Agree.emits {m m' : Ps2Fsm} (h : m.Agree m') (v : View) : m.emits v = m'.emits v := by
  unfold Ps2Fsm.emits
  rw [← h.data_valid]
  cases hv : m.data_valid with
  | false => rfl
  | true => rw [h.data_out (h.full_frame (Or.inr hv))]

/-- A shifted-in bit is in front of the earlier ones. -/
theorem getLsbD_shifted (b : Bool) (x : BitVec 11) {j : ℕ} (hj : j < 11) :
    (BitVec.ofBool b ++ x.extractLsb' 1 10).getLsbD (10 - j)
      = if j = 0 then b else x.getLsbD (10 - (j - 1)) := by
  rw [BitVec.getLsbD_append]
  cases j with
  | zero => simp
  | succ j =>
      rw [if_pos (by omega), BitVec.getLsbD_extractLsb', if_neg (by omega),
        show 1 + (10 - (j + 1)) = 10 - (j + 1 - 1) by omega]
      simp
      omega

/-- The first four values of `fsm` lead to no other. -/
theorem fsm_cases_step {m : Ps2Fsm} (h : m.fsm = .S1 ∨ m.fsm = .S2 ∨ m.fsm = .S3 ∨ m.fsm = .S4)
    (v : View) : (m.step v).fsm = .S1 ∨ (m.step v).fsm = .S2 ∨ (m.step v).fsm = .S3 ∨
      (m.step v).fsm = .S4 := by
  cases v with
  | none => exact h
  | some view =>
      rcases view with ⟨c, d⟩
      rcases h with h1 | h2 | h3 | h4
      · rw [step_S1 h1]
        dsimp only
        split
        · exact Or.inr (Or.inl rfl)
        · exact Or.inl rfl
      · cases c with
        | false =>
            rw [step_S2_low h2]
            exact Or.inr (Or.inl h2)
        | true =>
            rw [step_S2_high h2]
            dsimp only
            split
            · exact Or.inr (Or.inr (Or.inr rfl))
            · exact Or.inr (Or.inr (Or.inl rfl))
      · cases c with
        | false =>
            rw [step_S3_low h3]
            exact Or.inr (Or.inl rfl)
        | true =>
            rw [step_S3_high h3]
            exact Or.inr (Or.inr (Or.inl h3))
      · rw [step_S4 h4]
        exact Or.inl rfl

/-- The bit of the present frame that a high clock shifts in is the same for both. -/
theorem Agree.take {m m' : Ps2Fsm} (h : m.Agree m') (hfsm : m.fsm = .S2) (d : Bool) :
    (m.step (some (true, d))).Agree (m'.step (some (true, d))) := by
  have hle := h.open_frame (Or.inl hfsm)
  have hquiet : m.data_valid = false := by
    by_contra hv
    rw [Bool.not_eq_false] at hv
    have := h.full_frame (Or.inr hv)
    omega
  have hcount : (m.counter + 1).toNat = m.counter.toNat + 1 := by
    rw [BitVec.toNat_add]
    show (m.counter.toNat + 1) % 2 ^ 4 = _
    omega
  rw [step_S2_high hfsm, step_S2_high (h.fsm ▸ hfsm), ← h.counter]
  refine ⟨rfl, rfl, h.data_valid, ?_, ?_, ?_⟩
  · intro j hj hj11
    dsimp only at hj ⊢
    rw [getLsbD_shifted d _ hj11, getLsbD_shifted d _ hj11]
    by_cases h0 : j = 0
    · rw [if_pos h0, if_pos h0]
    · rw [if_neg h0, if_neg h0]
      exact h.bits (j - 1) (by omega) (by omega)
  · dsimp only
    intro hopen
    by_cases hlast : 10 ≤ m.counter.toNat
    · rw [if_pos hlast] at hopen
      rcases hopen with h2 | h3
      · cases h2
      · cases h3
    · omega
  · dsimp only
    rintro (h4 | hv)
    · by_cases hlast : 10 ≤ m.counter.toNat
      · omega
      · rw [if_neg hlast] at h4
        cases h4
    · rw [hquiet] at hv
      cases hv

/-- Equal views keep the agreement. -/
theorem Agree.step {m m' : Ps2Fsm} (h : m.Agree m') (v : View) : (m.step v).Agree (m'.step v) := by
  have htake := fun hfsm => h.take hfsm
  have hbits := h.bits
  have hopen := h.open_frame
  have hfull := h.full_frame
  rcases m with ⟨fsm, counter, data_valid, data_out⟩
  rcases m' with ⟨fsm', counter', data_valid', data_out'⟩
  obtain rfl : fsm = fsm' := h.fsm
  obtain rfl : counter = counter' := h.counter
  obtain rfl : data_valid = data_valid' := h.data_valid
  dsimp only at hbits hopen hfull
  cases v with
  | none =>
      refine ⟨rfl, rfl, rfl, hbits, hopen, ?_⟩
      rintro (h4 | hv)
      · exact hfull (Or.inl h4)
      · cases hv
  | some view =>
      rcases view with ⟨c, d⟩
      cases fsm with
      | S1 =>
          -- the bits of the last frame are forgotten
          refine ⟨rfl, rfl, rfl, ?_, ?_, ?_⟩
          · intro j hj
            exact absurd hj (Nat.not_lt_zero j)
          · intro _
            exact Nat.zero_le _
          · rintro (h4 | hv)
            · unfold Ps2Fsm.step at h4
              dsimp only at h4
              split at h4 <;> cases h4
            · cases hv
      | S2 =>
          cases c with
          | false => exact h
          | true => exact htake rfl d
      | S3 =>
          have hle := hopen (Or.inr rfl)
          refine ⟨rfl, rfl, rfl, hbits, fun _ => hle, ?_⟩
          rintro (h4 | hv)
          · unfold Ps2Fsm.step at h4
            dsimp only at h4
            split at h4 <;> cases h4
          · exact hfull (Or.inr hv)
      | S4 =>
          have hge := hfull (Or.inl rfl)
          refine ⟨rfl, rfl, rfl, hbits, ?_, fun _ => hge⟩
          rintro (h2 | h3)
          · cases h2
          · cases h3
      | S5 => exact h
      | S6 => exact h
      | S7 => exact h
      | S8 => exact h

/-! ## A frame that is open -/

/-- Views with the clock at the level `c` come again and again. -/
def Recurring (c : Bool) (v : ℕ → View) : Prop := ∀ k, ∃ n, k ≤ n ∧ ∃ d, v n = some (c, d)

section Open

variable {m : Ps2Fsm} {v : ℕ → View}

/-- Without a low data line a resting machine stays at rest. -/
theorem run_resting (h : Resting m) (hv : ∀ n c, v n ≠ some (c, false)) (n : ℕ) :
    Resting (run step m v n) := by
  induction n with
  | zero => exact h
  | succ n ih =>
      rw [run_succ]
      cases hview : v n with
      | none => exact ⟨ih.1, rfl⟩
      | some view =>
          rcases view with ⟨c, d⟩
          cases d with
          | false => exact absurd hview (hv n c)
          | true =>
              rw [step_S1 ih.1]
              cases c <;> exact ⟨rfl, rfl⟩

/-- An announcement comes with the next view. -/
theorem S4_announces (hhigh : Recurring true v) {k : ℕ} (h : (run step m v k).fsm = .S4) :
    ∃ n, (run step m v n).data_valid = true := by
  have hwait : ∀ (t : Ps2Fsm) (i : View), t.fsm = .S4 → ¬ i ≠ none → (t.step i).fsm = .S4 := by
    intro t i ht hi
    rw [not_not] at hi
    rw [hi]
    exact ht
  have hnext : ∃ n, k ≤ n ∧ v n ≠ none := by
    obtain ⟨n, hkn, d, hd⟩ := hhigh k
    exact ⟨n, hkn, by rw [hd]; exact Option.some_ne_none _⟩
  obtain ⟨n, _, hS4, hv⟩ := run_until hwait h hnext
  obtain ⟨view, hview⟩ := Option.ne_none_iff_exists'.mp hv
  refine ⟨n + 1, ?_⟩
  rw [run_succ, hview, step_S4 hS4]

/-- A machine that only a view with the clock at the level `c` moves is where it was, with the
same count, when the next one comes. -/
theorem waits_for {c : Bool} {f : Ps2State}
    (hother : ∀ (t : Ps2Fsm) (d : Bool), t.fsm = f → t.step (some (!c, d)) = t)
    (hc : Recurring c v) {k : ℕ} (h : (run step m v k).fsm = f) :
    ∃ n d, v n = some (c, d) ∧ (run step m v n).fsm = f ∧
      (run step m v n).counter = (run step m v k).counter := by
  have hwait : ∀ (t : Ps2Fsm) (i : View),
      t.fsm = f ∧ t.counter = (run step m v k).counter → ¬ (∃ d, i = some (c, d)) →
      (t.step i).fsm = f ∧ (t.step i).counter = (run step m v k).counter := by
    intro t i ht hi
    cases i with
    | none => exact ht
    | some view =>
        rcases view with ⟨c', d⟩
        have hlevel : c' = !c := by
          rw [Bool.eq_not]
          rintro rfl
          exact hi ⟨d, rfl⟩
        rw [hlevel, hother t d ht.1]
        exact ht
  obtain ⟨n, _, ⟨hfsm, hcounter⟩, d, hd⟩ := run_until hwait ⟨h, rfl⟩ (hc k)
  exact ⟨n, d, hd, hfsm, hcounter⟩

/-- The next high clock takes a bit. -/
theorem S2_takes (hhigh : Recurring true v) {k : ℕ} (h : (run step m v k).fsm = .S2) :
    ∃ n, (run step m v n).fsm = (if 10 ≤ (run step m v k).counter.toNat then .S4 else .S3) ∧
      (run step m v n).counter = (run step m v k).counter + 1 := by
  obtain ⟨n, d, hd, hfsm, hcounter⟩ := waits_for (fun _ _ => step_S2_low) hhigh h
  refine ⟨n + 1, ?_⟩
  rw [run_succ, hd, step_S2_high hfsm, hcounter]
  exact ⟨rfl, rfl⟩

/-- The next low clock arms the machine. -/
theorem S3_arms (hlow : Recurring false v) {k : ℕ} (h : (run step m v k).fsm = .S3) :
    ∃ n, (run step m v n).fsm = .S2 ∧ (run step m v n).counter = (run step m v k).counter := by
  obtain ⟨n, d, hd, hfsm, hcounter⟩ := waits_for (fun _ _ => step_S3_high) hlow h
  refine ⟨n + 1, ?_⟩
  rw [run_succ, hd, step_S3_low hfsm]
  exact ⟨rfl, hcounter⟩

/-- A machine that has an open frame ends it, whatever the data: `j` more bits after the next
one. -/
theorem S2_announces (hlow : Recurring false v) (hhigh : Recurring true v) (j : ℕ) :
    ∀ k, (run step m v k).fsm = .S2 → (run step m v k).counter.toNat + j = 10 →
      ∃ n, (run step m v n).data_valid = true := by
  induction j with
  | zero =>
      intro k h hcount
      obtain ⟨n, hfsm, _⟩ := S2_takes hhigh h
      rw [if_pos (by omega)] at hfsm
      exact S4_announces hhigh hfsm
  | succ j ih =>
      intro k h hcount
      obtain ⟨n, hfsm, hcounter⟩ := S2_takes hhigh h
      rw [if_neg (by omega)] at hfsm
      obtain ⟨n', hfsm', hcounter'⟩ := S3_arms hlow hfsm
      refine ih n' hfsm' ?_
      rw [hcounter', hcounter, BitVec.toNat_add]
      show ((run step m v k).counter.toNat + 1) % 2 ^ 4 + j = 10
      omega

/-- A machine in the middle of a frame when its counter is cleared announces a word once the
clock goes on. -/
theorem open_announces (hlow : Recurring false v) (hhigh : Recurring true v)
    (hfsm : m.fsm = .S2 ∨ m.fsm = .S3 ∨ m.fsm = .S4) (hcounter : m.counter = 0) :
    ∃ n, (run step m v n).data_valid = true := by
  have hzero : (run step m v 0).counter.toNat = 0 := by
    rw [run_zero, hcounter]
    rfl
  rcases hfsm with h2 | h3 | h4
  · exact S2_announces hlow hhigh 10 0 h2 (by omega)
  · obtain ⟨n, hn, hcount⟩ := S3_arms (m := m) hlow (k := 0) h3
    exact S2_announces hlow hhigh 10 n hn (by rw [hcount]; omega)
  · exact S4_announces (m := m) hhigh (k := 0) h4

end Open

end Ps2Fsm

/-! ## The receiver -/

namespace Ps2Receive

variable {C : ℕ}

/-- The receiver has been powered up waiting for a start bit, and has run since. -/
def Reachable (s : Ps2Receive C) : Prop :=
  ∃ (p : Ps2Receive C) (u : ℕ → Ports) (n : ℕ), p.regs.fsm = .S1 ∧ s = run step p u n

/-- The lines and the reset are the same; what a reset leaves undefined may differ. -/
structure Ports.SameLines (i j : Ports) : Prop where
  clock_sreset : i.clock_sreset = j.clock_sreset
  ps2_clk : i.ps2_clk = j.ps2_clk
  ps2_dat : i.ps2_dat = j.ps2_dat

/-- After a reset of any length that ends with equal samples in the flops, the receiver cannot be
told from one that goes through the same reset after power-up. -/
def ResetComplete (s : Ps2Receive C) : Prop :=
  ∀ (p : Ps2Receive C) (u v : ℕ → Ports) (r : ℕ), p.regs.fsm = .S1 → 0 < r →
    (∀ k < r, (u k).clock_sreset = true) → (∀ k, (u (r + k)).clock_sreset = false) →
    (∀ k, (u k).SameLines (v k)) →
    (run step s u r).clk.meta_sample = (run step p v r).clk.meta_sample →
    (run step s u r).dat.meta_sample = (run step p v r).dat.meta_sample →
    ∀ n, (run step s u (r + n)).received = (run step p v (r + n)).received

/-- Only the first four values of `fsm` are used. -/
theorem Reachable.fsm_cases {s : Ps2Receive C} (h : s.Reachable) :
    s.regs.fsm = .S1 ∨ s.regs.fsm = .S2 ∨ s.regs.fsm = .S3 ∨ s.regs.fsm = .S4 := by
  obtain ⟨p, u, n, hp, rfl⟩ := h
  refine run_invariant (fun _ (t : Ps2Receive C) =>
    t.regs.fsm = .S1 ∨ t.regs.fsm = .S2 ∨ t.regs.fsm = .S3 ∨ t.regs.fsm = .S4) (Or.inl hp) ?_ n
  intro k t ht
  cases hr : (u k).clock_sreset with
  | true =>
      rw [step_reset_regs hr]
      exact ht
  | false =>
      rw [step_regs hr]
      exact Ps2Fsm.fsm_cases_step ht t.view

/-! ### Reset while waiting for a start bit -/

/-- Two receivers that cannot be told apart. -/
structure Agree (s t : Ps2Receive C) : Prop where
  clk : s.clk.Agree t.clk
  dat : s.dat.Agree t.dat
  regs : s.regs.Agree t.regs

theorem Agree.view {s t : Ps2Receive C} (h : s.Agree t) : s.view = t.view := by
  unfold Ps2Receive.view
  rw [← h.clk.valid_out, ← h.dat.valid_out]
  by_cases hvalid : (s.clk.valid_out && s.dat.valid_out) = true
  · rw [if_pos hvalid, if_pos hvalid]
    rw [Bool.and_eq_true] at hvalid
    rw [h.clk.out hvalid.1, h.dat.out hvalid.2]
  · rw [if_neg hvalid, if_neg hvalid]

theorem Agree.received {s t : Ps2Receive C} (h : s.Agree t) : s.received = t.received :=
  h.regs.emits none

/-- Equal lines keep the agreement. -/
theorem Agree.step {s t : Ps2Receive C} (h : s.Agree t) {i j : Ports}
    (hi : i.clock_sreset = false) (hij : i.SameLines j) : (s.step i).Agree (t.step j) := by
  have hj : j.clock_sreset = false := hij.clock_sreset ▸ hi
  refine ⟨h.clk.step hi hj hij.ps2_clk, h.dat.step hi hj hij.ps2_dat, ?_⟩
  rw [step_regs hi, step_regs hj, ← h.view]
  exact h.regs.step _

/-- A receiver that waits for a start bit is reset completely. -/
theorem resetComplete_of_waiting {s : Ps2Receive C} (hs : s.regs.fsm = .S1) : s.ResetComplete := by
  intro p u v r hp hr hreset hrun hsame hclk hdat n
  have hreset' : ∀ k < r, (v k).clock_sreset = true :=
    fun k hk => (hsame k).clock_sreset ▸ hreset k hk
  have hrs := released_of_reset hs hr hreset
  have hrp := released_of_reset hp hr hreset'
  have hstart : (run step s u r).Agree (run step p v r) := by
    obtain ⟨_, hcounter, _⟩ := run_reset_regs (s := s) hr hreset
    obtain ⟨_, hcounter', _⟩ := run_reset_regs (s := p) hr hreset'
    refine ⟨hrs.clk.agree hrp.clk hclk, hrs.dat.agree hrp.dat hdat, ?_⟩
    refine ⟨by rw [hrs.fsm, hrp.fsm], by rw [hcounter, hcounter'], by rw [hrs.quiet, hrp.quiet],
      ?_, ?_, ?_⟩
    · rw [hcounter]
      intro j hj
      exact absurd hj (Nat.not_lt_zero j)
    · rw [hcounter]
      intro _
      exact Nat.zero_le _
    · rw [hrs.fsm, hrs.quiet]
      rintro (h4 | hv)
      · cases h4
      · cases hv
  rw [run_add, run_add]
  refine Agree.received (run_relation Agree hstart ?_ n)
  intro k t t' h
  exact h.step (hrun k) (hsame (r + k))

/-! ### Reset in the middle of a frame -/

/-- Three clocks of reset with both lines high; then the data stays high, and the clock changes
every `C + 1` clocks. -/
def highData (C : ℕ) (n : ℕ) : Ports where
  clock_sreset := decide (n < 3)
  ps2_clk := decide (n < 3) || decide ((n - 3) / (C + 1) % 2 = 0)
  ps2_dat := true
  dontcare_clk := false
  dontcare_dat := false
  dontcare := 0

theorem highData_running (k : ℕ) : (highData C (3 + k)).clock_sreset = false := by
  simp [highData]

theorem highData_clk (k : ℕ) :
    (highData C (3 + k)).ps2_clk = decide (k / (C + 1) % 2 = 0) := by
  simp [highData]

/-- Once the reset is over all samples of the data line are high but the two it has cleared. -/
theorem highData_samples (s : Ps2Receive C) {j : ℕ} (hj : 2 ≤ j) :
    Debounce.samples (run step s (highData C) 3).dat (fun k => (highData C (3 + k)).datPorts) j
      = true := by
  have hmeta : (run step s (highData C) 3).dat.meta_sample
      = run shiftIn s.dat.meta_sample (fun k => (highData C k).ps2_dat) 3 := by
    rw [run_dat]
    exact run_proj Debounce.meta_sample (fun _ (i : Debounce.Ports) => i.line)
      (fun _ _ => Debounce.step_meta_sample) _ _ 3
  match j, hj with
  | 2, _ =>
      show (run step s (highData C) 3).dat.meta_sample.getLsbD 2 = true
      rw [hmeta]
      exact shiftIn_bit _ _ 0 2 (by omega)
  | 3, _ =>
      show (run step s (highData C) 3).dat.meta_sample.getLsbD 1 = true
      rw [hmeta]
      exact shiftIn_bit _ _ 1 1 (by omega)
  | 4, _ =>
      show (run step s (highData C) 3).dat.meta_sample.getLsbD 0 = true
      rw [hmeta]
      exact shiftIn_bit _ _ 2 0 (by omega)
  | k + 5, _ => rfl

/-- The views of both levels of the clock come again and again. -/
theorem highData_recurring (hC : 2 ≤ C) {s : Ps2Receive C}
    (hs : (run step s (highData C) 3).Released) (c : Bool) :
    Ps2Fsm.Recurring c (fun k => (run step s (highData C) (3 + k)).view) := by
  have hsees := sees hC hs (highData_running (C := C))
  intro k
  -- a phase of the right level that starts after clock `k`
  obtain ⟨q, hkq, hq⟩ : ∃ q, k ≤ q ∧ decide (q % 2 = 0) = c := by
    cases c with
    | true => exact ⟨2 * k, by omega, decide_eq_true (by omega)⟩
    | false => exact ⟨2 * k + 1, by omega, decide_eq_false (by omega)⟩
  have hlong : q ≤ q * (C + 1) := Nat.le_mul_of_pos_right q (by omega)
  refine ⟨q * (C + 1) + C + 5, by omega, true, ?_⟩
  show (run step s (highData C) (3 + (q * (C + 1) + C + 5))).view = some (c, true)
  rw [run_add]
  refine hsees.constant _ c true (by omega) ?_
  intro j h1 h2
  have hphase : j / (C + 1) = q := by
    rw [Nat.div_eq_iff (by omega)]
    omega
  refine ⟨?_, rfl⟩
  rw [highData_clk, hphase, hq]

/-- The receiver with the machine put back to waiting. -/
def waiting (s : Ps2Receive C) : Ps2Receive C := { s with regs := { s.regs with fsm := .S1 } }

/-- The views do not depend on the machine. -/
theorem waiting_view (s : Ps2Receive C) (u : ℕ → Ports) (n : ℕ) :
    (run step s.waiting u n).view = (run step s u n).view := by
  unfold view
  rw [run_clk, run_dat, run_clk, run_dat]
  rfl

/-- In the middle of a frame the reset is not complete: with the data line high the receiver
announces a word, and the one that waits does not. -/
theorem not_resetComplete (hC : 2 ≤ C) {s : Ps2Receive C}
    (hfsm : s.regs.fsm = .S2 ∨ s.regs.fsm = .S3 ∨ s.regs.fsm = .S4) : ¬ s.ResetComplete := by
  intro hcomplete
  have hreset : ∀ k < 3, (highData C k).clock_sreset = true := by
    intro k hk
    exact decide_eq_true hk
  have hreleased : (run step s.waiting (highData C) 3).Released :=
    released_of_reset rfl (by omega) hreset
  have hview : (fun k => (run step s (highData C) (3 + k)).view)
      = fun k => (run step s.waiting (highData C) (3 + k)).view := by
    funext k
    rw [waiting_view]
  -- the receiver in the middle of a frame
  obtain ⟨hkept, hcounter, _⟩ := run_reset_regs (s := s) (by omega) hreset
  rw [← hkept] at hfsm
  obtain ⟨n, hn⟩ := Ps2Fsm.open_announces
    (v := fun k => (run step s (highData C) (3 + k)).view)
    (hview ▸ highData_recurring hC hreleased false) (hview ▸ highData_recurring hC hreleased true)
    hfsm hcounter
  have hregs : (run step s (highData C) (3 + n)).regs.data_valid = true := by
    rw [run_add, run_regs highData_running]
    simp only [← run_add]
    exact hn
  -- the waiting receiver sees no start bit
  have hquiet : (run step s.waiting (highData C) (3 + n)).regs.data_valid = false := by
    rw [run_add, run_regs highData_running]
    refine (Ps2Fsm.run_resting ⟨hreleased.fsm, hreleased.quiet⟩ ?_ n).2
    intro k c hv
    obtain ⟨hk, hsample⟩ := view_dat hC hreleased.dat highData_running hv
    have htrue := highData_samples s.waiting (show 2 ≤ k by omega)
    rw [hsample k (by omega) (le_refl k)] at htrue
    cases htrue
  have heq := hcomplete s.waiting (highData C) (highData C) 3 rfl (by omega) hreset
    highData_running (fun _ => ⟨rfl, rfl, rfl⟩) (by rw [run_clk, run_clk]; rfl)
    (by rw [run_dat, run_dat]; rfl) n
  unfold received at heq
  rw [hregs, hquiet] at heq
  cases heq

/-- **When the reset is complete.** For every state that the receiver can reach from power-up:
the words it announces after a reset are the ones after a reset from power-up if and only if it
was waiting for a start bit when the reset came. -/
theorem reset_complete_iff (hC : 2 ≤ C) {s : Ps2Receive C} (hs : s.Reachable) :
    s.ResetComplete ↔ s.regs.fsm = .S1 := by
  constructor
  · intro hcomplete
    rcases hs.fsm_cases with h1 | hopen
    · exact h1
    · exact absurd hcomplete (not_resetComplete hC hopen)
  · exact resetComplete_of_waiting

/-! ### A start bit and a reset -/

/-- Both lines low. -/
def lowLines (_ : ℕ) : Ports where
  clock_sreset := false
  ps2_clk := false
  ps2_dat := false
  dontcare_clk := false
  dontcare_dat := false
  dontcare := 0

/-- The first view of two low lines is taken for a start bit. -/
theorem lowLines_fsm (hC : 2 ≤ C) {s : Ps2Receive C} (hs : s.Released)
    (hclk : ∀ j, Debounce.samples s.clk (fun k => (lowLines k).clkPorts) j = false)
    (hdat : ∀ j, Debounce.samples s.dat (fun k => (lowLines k).datPorts) j = false) :
    (run step s lowLines (C + 1)).regs.fsm = .S2 := by
  have hview := view_eq_some hC hs (fun _ => rfl) (le_refl C) (fun j _ _ => hclk j)
    (fun j _ _ => hdat j)
  -- no view before: the machine waits
  have hwait : (run step s lowLines C).regs.fsm = .S1 := by
    rw [← hs.fsm]
    refine run_hold (fun t : Ps2Receive C => t.regs.fsm) (Nat.zero_le _) ?_
    intro k _ hk
    rw [step_regs rfl]
    cases hv : (run step s lowLines k).view with
    | none => rfl
    | some view =>
        have := (view_clk hC hs.clk (fun _ => rfl) hv).1
        omega
  rw [run_succ, step_regs rfl, hview]
  unfold Ps2Fsm.step
  rw [hwait]
  rfl

/-- The start bit of a frame, seen by the receiver after power-up. -/
def startBitSeen : Ps2Receive (debounceCycles 100000000 5) :=
  run step KeyboardModule.poweredUp.ps2_rx lowLines (debounceCycles 100000000 5 + 1)

theorem startBitSeen_fsm : startBitSeen.regs.fsm = .S2 := by
  have hlow : ∀ j, Debounce.samples KeyboardModule.poweredUp.ps2_rx.clk
      (fun k => (lowLines k).clkPorts) j = false := by
    intro j
    match j with
    | 0 => rfl
    | 1 => rfl
    | 2 => rfl
    | 3 => rfl
    | 4 => rfl
    | k + 5 => rfl
  exact lowLines_fsm (by decide) ⟨⟨rfl, rfl, rfl, rfl⟩, ⟨rfl, rfl, rfl, rfl⟩, rfl, rfl⟩ hlow hlow

/-- A reset after the start bit has been seen is not complete. -/
theorem reset_keeps_open_frame : startBitSeen.Reachable ∧ ¬ startBitSeen.ResetComplete :=
  ⟨⟨KeyboardModule.poweredUp.ps2_rx, lowLines, _, rfl, rfl⟩,
    not_resetComplete (by decide) (Or.inl startBitSeen_fsm)⟩

theorem reset_complete_poweredUp :
    KeyboardModule.poweredUp.ps2_rx.ResetComplete ∧ KeyboardModule.poweredUp.ps2_rx.Reachable := by
  have hreach : KeyboardModule.poweredUp.ps2_rx.Reachable :=
    ⟨KeyboardModule.poweredUp.ps2_rx, lowLines, 0, rfl, rfl⟩
  exact ⟨(reset_complete_iff (by decide) hreach).mpr rfl, hreach⟩

end Ps2Receive

end OneBitSDR
