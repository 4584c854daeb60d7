import OneBitSDR.Clocked.Delivers
import OneBitSDR.Ps2.Debounce

set_option autoImplicit false

/-! # `ps2_receive.sv`

Both lines are debounced, and the state machine moves only in the clocks in which both outputs
are valid. It sees the lines as a stream of views: nothing, or a value of `ps2_clk` and one of
`ps2_dat`. A bit is taken at the first view with a high clock after one with a low clock, and
the bit counter ends the frame at the eleventh.
-/

namespace OneBitSDR

open Clocked

/-! ## The state machine -/

/-- The values of `fsm`. -/
inductive Ps2State
  | S1 | S2 | S3 | S4 | S5 | S6 | S7 | S8
  deriving DecidableEq

/-- The registers that the state machine assigns. -/
structure Ps2Fsm where
  fsm : Ps2State
  counter : BitVec 4
  data_valid : Bool
  data_out : BitVec 11

/-- What the machine sees in a clock: if both debouncers are valid, `ps2_clk_out` and
`ps2_dat_out`. -/
abbrev View := Option (Bool × Bool)

namespace Ps2Fsm

/-- One rising edge of `clock` outside reset. -/
def step (m : Ps2Fsm) : View → Ps2Fsm
  | some (ps2_clk_out, ps2_dat_out) =>
      match m.fsm with
      | .S1 =>
          { m with
            counter := 0
            data_valid := false
            fsm := if !ps2_clk_out && !ps2_dat_out then .S2 else .S1 }
      | .S2 =>
          -- the clock has risen: a bit is shifted in, and the counter is the number of bits before
          if ps2_clk_out then
            { m with
              data_out := BitVec.ofBool ps2_dat_out ++ m.data_out.extractLsb' 1 10
              counter := m.counter + 1
              fsm := if 10 ≤ m.counter.toNat then .S4 else .S3 }
          else m
      | .S3 => { m with fsm := if !ps2_clk_out then .S2 else .S3 }
      | .S4 => { m with data_valid := true, fsm := .S1 }
      | _ => m
  | none => { m with data_valid := false }

/-- One rising edge of `clock` in reset; `dontcare` is left in `data_out`. -/
def reset (m : Ps2Fsm) (dontcare : BitVec 11) : Ps2Fsm :=
  { m with counter := 0, data_out := dontcare, data_valid := false }

/-- The machine delivers `data_out` in the clocks with `data_valid`. -/
def emits (m : Ps2Fsm) (_ : View) : Option (BitVec 11) :=
  if m.data_valid then some m.data_out else none

theorem emits_quiet {m : Ps2Fsm} {v : View} (h : m.data_valid = false) : emits m v = none := by
  unfold emits
  rw [h]
  rfl

/-! ## One view, by the state of the machine -/

section States

variable {m : Ps2Fsm} {c d : Bool}

theorem step_S1 (h : m.fsm = .S1) :
    m.step (some (c, d)) =
      { m with
        counter := 0
        data_valid := false
        fsm := if !c && !d then .S2 else .S1 } := by
  simp only [step, h]

/-- A high clock shifts in a bit. -/
theorem step_S2_high (h : m.fsm = .S2) :
    m.step (some (true, d)) =
      { m with
        data_out := BitVec.ofBool d ++ m.data_out.extractLsb' 1 10
        counter := m.counter + 1
        fsm := if 10 ≤ m.counter.toNat then .S4 else .S3 } := by
  simp only [step, h, if_true]

theorem step_S2_low (h : m.fsm = .S2) : m.step (some (false, d)) = m := by
  simp [step, h]

/-- A low clock arms the machine. -/
theorem step_S3_low (h : m.fsm = .S3) : m.step (some (false, d)) = { m with fsm := .S2 } := by
  simp [step, h]

theorem step_S3_high (h : m.fsm = .S3) : m.step (some (true, d)) = m := by
  rcases m with ⟨fsm, counter, data_valid, data_out⟩
  dsimp only at h
  rw [h]
  rfl

/-- A complete word is announced. -/
theorem step_S4 (h : m.fsm = .S4) :
    m.step (some (c, d)) = { m with data_valid := true, fsm := .S1 } := by
  simp only [step, h]

end States

/-! ## Bits -/

/-- The first `i` bits of the word `w` are in `data_out`, shifted in from the top. -/
def Shifted (w : BitVec 11) (i : ℕ) (data_out : BitVec 11) : Prop :=
  ∀ j < i, data_out.getLsbD (11 - i + j) = w.getLsbD j

theorem Shifted.next {w data_out : BitVec 11} {i : ℕ} (h : Shifted w i data_out) (hi : i < 11) :
    Shifted w (i + 1) (BitVec.ofBool (w.getLsbD i) ++ data_out.extractLsb' 1 10) := by
  intro j hj
  rw [BitVec.getLsbD_append]
  by_cases hlast : j = i
  · rw [if_neg (by omega), hlast, show 11 - (i + 1) + i - 10 = 0 by omega]
    simp
  · rw [if_pos (by omega), BitVec.getLsbD_extractLsb',
      show 1 + (11 - (i + 1) + j) = 11 - i + j by omega, h j (by omega)]
    simp
    omega

theorem Shifted.eq {w data_out : BitVec 11} (h : Shifted w 11 data_out) : data_out = w := by
  apply BitVec.eq_of_getLsbD_eq
  intro j hj
  have hbit := h j hj
  rw [show 11 - 11 + j = j by omega] at hbit
  exact hbit

/-- The machine waits for the low phase of bit `i` of the word `w`. -/
structure Ready (w : BitVec 11) (i : ℕ) (m : Ps2Fsm) : Prop where
  fsm : m.fsm = if i = 0 then .S1 else .S3
  counter : 0 < i → m.counter.toNat = i
  shifted : Shifted w i m.data_out
  quiet : m.data_valid = false

/-- The machine has seen the low phase of bit `i` and waits for the high phase. -/
structure Armed (w : BitVec 11) (i : ℕ) (m : Ps2Fsm) : Prop where
  fsm : m.fsm = .S2
  counter : m.counter.toNat = i
  shifted : Shifted w i m.data_out
  quiet : m.data_valid = false

/-- The machine waits for a start bit. -/
def Resting (m : Ps2Fsm) : Prop := m.fsm = .S1 ∧ m.data_valid = false

/-- Before the first bit nothing depends on the word. -/
theorem resting_iff (w : BitVec 11) (m : Ps2Fsm) : Resting m ↔ Ready w 0 m := by
  constructor
  · rintro ⟨hfsm, hquiet⟩
    exact ⟨hfsm, fun hpos => by omega, fun j hj => by omega, hquiet⟩
  · intro h
    exact ⟨h.fsm, h.quiet⟩

/-- The view does not show the clock at the level `c`. -/
def Without (c : Bool) (v : View) : Prop := ∀ d, v ≠ some (c, d)

theorem without_some {c c' d : Bool} (h : Without c (some (c', d))) : c' = !c := by
  have hne : c' ≠ c := by
    intro heq
    exact h d (by rw [heq])
  exact Bool.eq_not_iff.mpr hne

section Steps

variable {w : BitVec 11} {i : ℕ} {m : Ps2Fsm} {v : View}

/-- Without a low clock the machine goes on waiting. -/
theorem Ready.wait (h : Ready w i m) (hv : Without false v) : Ready w i (m.step v) := by
  have hfsm := h.fsm
  cases v with
  | none => exact ⟨h.fsm, h.counter, h.shifted, rfl⟩
  | some view =>
      rcases view with ⟨c, d⟩
      obtain rfl : c = true := without_some hv
      by_cases hi : i = 0
      · rw [if_pos hi] at hfsm
        rw [step_S1 hfsm]
        exact ⟨by rw [if_pos hi]; rfl, fun hpos => by omega, h.shifted, rfl⟩
      · rw [if_neg hi] at hfsm
        rw [step_S3_high hfsm]
        exact h

/-- The low clock; for the start bit the data has to be low as well. -/
theorem Ready.arm (h : Ready w i m) {d : Bool} (hd : i = 0 → d = false) :
    Armed w i (m.step (some (false, d))) := by
  have hfsm := h.fsm
  by_cases hi : i = 0
  · rw [if_pos hi] at hfsm
    rw [step_S1 hfsm, hd hi, hi]
    exact ⟨rfl, rfl, fun j hj => by omega, rfl⟩
  · rw [if_neg hi] at hfsm
    rw [step_S3_low hfsm]
    exact ⟨rfl, h.counter (by omega), h.shifted, h.quiet⟩

/-- Without a high clock the machine stays armed. -/
theorem Armed.wait (h : Armed w i m) (hv : Without true v) : Armed w i (m.step v) := by
  cases v with
  | none => exact ⟨h.fsm, h.counter, h.shifted, rfl⟩
  | some view =>
      rcases view with ⟨c, d⟩
      obtain rfl : c = false := without_some hv
      rw [step_S2_low h.fsm]
      exact h

/-- A bit is taken, and the machine waits for the next one. -/
theorem Armed.take (h : Armed w i m) (hi : i < 10) :
    Ready w (i + 1) (m.step (some (true, w.getLsbD i))) := by
  rw [step_S2_high h.fsm, h.counter, if_neg (by omega)]
  refine ⟨by rw [if_neg (by omega)], ?_, h.shifted.next (by omega), h.quiet⟩
  intro _
  dsimp only
  rw [BitVec.toNat_add, h.counter]
  show (i + 1) % 2 ^ 4 = i + 1
  omega

/-- The last bit is taken. -/
theorem Armed.take_last (h : Armed w 10 m) :
    (m.step (some (true, w.getLsbD 10))).fsm = .S4 ∧
      (m.step (some (true, w.getLsbD 10))).data_out = w ∧
      (m.step (some (true, w.getLsbD 10))).data_valid = false := by
  rw [step_S2_high h.fsm, h.counter]
  exact ⟨rfl, (h.shifted.next (by omega)).eq, h.quiet⟩

end Steps

/-! ## The views of a bit -/

/-- The views while bit `i` is on the lines: the clock falls before the view `fall`, it rises
before the view `rise`, and the bit ends before the view `stop`. -/
structure BitViews (b : Bool) (fall rise stop : ℕ) (v : ℕ → View) : Prop where
  idle : ∀ k < fall, Without false (v k)
  low : v fall = some (false, b)
  armed : ∀ k, fall < k → k < rise → Without true (v k)
  high : ∀ k, rise ≤ k → k < rise + 3 → v k = some (true, b)
  rest : ∀ k, rise + 3 ≤ k → k < stop → Without false (v k)

section Bits

variable {w : BitVec 11} {i fall rise stop : ℕ} {m : Ps2Fsm} {v : ℕ → View}

/-- Without a low clock nothing happens between two frames. -/
theorem resting_delivers (h : Resting m) {n : ℕ} (hv : ∀ k < n, Without false (v k)) :
    Delivers step emits m v n Resting [] := by
  refine Delivers.silent (P := fun _ => Resting) h ?_
  intro k hk t ht
  have hnext := ((resting_iff 0 t).mp ht).wait (hv k hk)
  exact ⟨(resting_iff 0 _).mpr hnext, emits_quiet ht.2⟩

/-- Up to the first high view. -/
theorem armed_delivers (h : Ready w i m) (hw : w.getLsbD 0 = false) (hfr : fall < rise)
    (hv : BitViews (w.getLsbD i) fall rise stop v) :
    Delivers step emits m v rise (Armed w i) [] := by
  have hwait : Delivers step emits m v fall (Ready w i) [] := by
    refine Delivers.silent (P := fun _ => Ready w i) h ?_
    intro k hk t ht
    exact ⟨ht.wait (hv.idle k hk), emits_quiet ht.quiet⟩
  have harm : Delivers step emits m v (fall + 1) (Armed w i) [] := by
    refine hwait.silent_seq ?_
    intro t ht
    refine Delivers.tick (e := none) ?_ (emits_quiet ht.quiet)
    rw [Nat.add_zero, hv.low]
    apply ht.arm
    intro hi
    rw [hi, hw]
  rw [show rise = fall + 1 + (rise - (fall + 1)) by omega]
  refine harm.silent_seq ?_
  intro t ht
  refine Delivers.silent (P := fun _ => Armed w i) ht ?_
  intro k hk t' ht'
  exact ⟨ht'.wait (hv.armed _ (by omega) (by omega)), emits_quiet ht'.quiet⟩

/-- The first high view is read by an armed machine. -/
theorem take_delivers (h : Ready w i m) (hw : w.getLsbD 0 = false) (hfr : fall < rise)
    (hv : BitViews (w.getLsbD i) fall rise stop v) {Q : Ps2Fsm → Prop}
    (hQ : ∀ t, Armed w i t → Q (t.step (some (true, w.getLsbD i)))) :
    Delivers step emits m v (rise + 1) Q [] := by
  refine (armed_delivers h hw hfr hv).silent_seq ?_
  intro t ht
  refine Delivers.tick (e := none) ?_ (emits_quiet ht.quiet)
  rw [Nat.add_zero rise, hv.high rise (by omega) (by omega)]
  exact hQ t ht

/-- One of the first ten bits. -/
theorem bit_delivers (h : Ready w i m) (hw : w.getLsbD 0 = false) (hi : i < 10)
    (hfr : fall < rise) (hrs : rise + 3 ≤ stop)
    (hv : BitViews (w.getLsbD i) fall rise stop v) :
    Delivers step emits m v stop (Ready w (i + 1)) [] := by
  have htake : Delivers step emits m v (rise + 1) (Ready w (i + 1)) [] :=
    take_delivers h hw hfr hv (fun _ ht => ht.take hi)
  rw [show stop = rise + 1 + (stop - (rise + 1)) by omega]
  refine htake.silent_seq ?_
  intro t ht
  refine Delivers.silent (P := fun _ => Ready w (i + 1)) ht ?_
  intro k hk t' ht'
  refine ⟨ht'.wait ?_, emits_quiet ht'.quiet⟩
  -- the rest of the high phase has no low view
  by_cases hhigh : rise + 1 + k < rise + 3
  · rw [hv.high _ (by omega) hhigh]
    intro d hd
    cases hd
  · exact hv.rest _ (by omega) (by omega)

/-- The last bit: the word is delivered, and the machine waits for a start bit. -/
theorem last_bit_delivers (h : Ready w 10 m) (hw : w.getLsbD 0 = false) (hfr : fall < rise)
    (hrs : rise + 3 ≤ stop) (hv : BitViews (w.getLsbD 10) fall rise stop v) :
    Delivers step emits m v stop Resting [w] := by
  -- the three high views: the bit is taken, the word announced, the announcement taken back
  have htake : Delivers step emits m v (rise + 1)
      (fun t => t.fsm = .S4 ∧ t.data_out = w ∧ t.data_valid = false) [] :=
    take_delivers h hw hfr hv (fun _ ht => ht.take_last)
  have hannounce : Delivers step emits m v (rise + 1 + 1)
      (fun t => t.fsm = .S1 ∧ t.data_out = w ∧ t.data_valid = true) [] := by
    refine htake.silent_seq ?_
    rintro t ⟨hfsm, hout, hquiet⟩
    refine Delivers.tick (e := none) ?_ (emits_quiet hquiet)
    rw [Nat.add_zero, hv.high (rise + 1) (by omega) (by omega), step_S4 hfsm]
    exact ⟨rfl, hout, rfl⟩
  have hdone : Delivers step emits m v (rise + 1 + 1 + 1) Resting [w] := by
    refine hannounce.silent_seq ?_
    rintro t ⟨hfsm, hout, hvalid⟩
    refine Delivers.tick (e := some w) ?_ ?_
    · rw [Nat.add_zero, hv.high (rise + 1 + 1) (by omega) (by omega), step_S1 hfsm]
      exact ⟨rfl, rfl⟩
    · unfold emits
      rw [hvalid, if_pos rfl, hout]
  have hrest : ∀ t, Resting t → Delivers step emits t (fun k => v (rise + 1 + 1 + 1 + k))
      (stop - (rise + 3)) Resting [] := by
    intro t ht
    exact resting_delivers ht (fun k hk => hv.rest _ (by omega) (by omega))
  rw [show stop = rise + 1 + 1 + 1 + (stop - (rise + 3)) by omega]
  exact hdone.seq hrest

end Bits

end Ps2Fsm

/-! ## The module -/

/-- The registers of `ps2_receive`, those of its two debouncers included. -/
structure Ps2Receive (CYCLES : ℕ) where
  clk : Debounce CYCLES
  dat : Debounce CYCLES
  regs : Ps2Fsm

namespace Ps2Receive

/-- The input ports, and the values a reset leaves in registers. -/
structure Ports where
  clock_sreset : Bool
  ps2_clk : Bool
  ps2_dat : Bool
  dontcare_clk : Bool
  dontcare_dat : Bool
  dontcare : BitVec 11

def Ports.clkPorts (i : Ports) : Debounce.Ports where
  clock_sreset := i.clock_sreset
  line := i.ps2_clk
  dontcare := i.dontcare_clk

def Ports.datPorts (i : Ports) : Debounce.Ports where
  clock_sreset := i.clock_sreset
  line := i.ps2_dat
  dontcare := i.dontcare_dat

variable {C : ℕ}

/-- What the machine sees. -/
def view (s : Ps2Receive C) : View :=
  if s.clk.valid_out && s.dat.valid_out then some (s.clk.out, s.dat.out) else none

theorem view_eq_some_iff {s : Ps2Receive C} {c d : Bool} :
    s.view = some (c, d)
      ↔ s.clk.valid_out = true ∧ s.dat.valid_out = true ∧ s.clk.out = c ∧ s.dat.out = d := by
  unfold view
  by_cases hvalid : (s.clk.valid_out && s.dat.valid_out) = true
  · rw [if_pos hvalid]
    rw [Bool.and_eq_true] at hvalid
    simp [hvalid]
  · rw [if_neg hvalid]
    rw [Bool.and_eq_true] at hvalid
    constructor
    · intro h
      cases h
    · rintro ⟨hc, hd, _⟩
      exact absurd ⟨hc, hd⟩ hvalid

/-- One rising edge of `clock`. The reset does not assign `fsm`. -/
def step (s : Ps2Receive C) (i : Ports) : Ps2Receive C where
  clk := s.clk.step i.clkPorts
  dat := s.dat.step i.datPorts
  regs := if i.clock_sreset then s.regs.reset i.dontcare else s.regs.step s.view

/-- The outputs `data_valid` and `data_out`. -/
def received (s : Ps2Receive C) : Option (BitVec 11) :=
  if s.regs.data_valid then some s.regs.data_out else none

/-- Out of reset: the machine waits for a start bit, and the debouncers have no sample. -/
structure Released (s : Ps2Receive C) : Prop where
  clk : s.clk.Cleared
  dat : s.dat.Cleared
  fsm : s.regs.fsm = .S1
  quiet : s.regs.data_valid = false

/-! What a reset does to the machine. -/

section Reset

variable {s : Ps2Receive C} {i : Ports}

theorem step_regs (h : i.clock_sreset = false) : (s.step i).regs = s.regs.step s.view := by
  simp [step, h]

theorem step_reset_regs (h : i.clock_sreset = true) :
    (s.step i).regs = s.regs.reset i.dontcare := by
  simp [step, h]

/-- A reset of any length keeps `fsm` and clears the counter and the flag. -/
theorem run_reset_regs {u : ℕ → Ports} {r : ℕ} (hr : 0 < r)
    (hreset : ∀ k < r, (u k).clock_sreset = true) :
    (run step s u r).regs.fsm = s.regs.fsm ∧ (run step s u r).regs.counter = 0 ∧
      (run step s u r).regs.data_valid = false := by
  have hfsm : (run step s u r).regs.fsm = s.regs.fsm := by
    refine run_hold (fun t : Ps2Receive C => t.regs.fsm) (Nat.zero_le r) ?_
    intro k _ hk
    rw [step_reset_regs (hreset k hk)]
    rfl
  obtain ⟨n, rfl⟩ := Nat.exists_eq_add_of_le' (show 1 ≤ r from hr)
  refine ⟨hfsm, ?_, ?_⟩
  · rw [run_succ, step_reset_regs (hreset n (by omega))]
    rfl
  · rw [run_succ, step_reset_regs (hreset n (by omega))]
    rfl

end Reset

/-- A reset of at least one clock from power-up. -/
theorem released_of_reset {s : Ps2Receive C} (hfsm : s.regs.fsm = .S1) {u : ℕ → Ports} {r : ℕ}
    (hr : 0 < r) (hreset : ∀ k < r, (u k).clock_sreset = true) :
    (run step s u r).Released := by
  obtain ⟨hkept, _, hquiet⟩ := run_reset_regs (s := s) hr hreset
  obtain ⟨n, rfl⟩ := Nat.exists_eq_add_of_le' (show 1 ≤ r from hr)
  -- the debouncers are cleared by the last edge
  have hlast := hreset n (by omega)
  exact ⟨Debounce.cleared_step _ hlast, Debounce.cleared_step _ hlast, hkept.trans hfsm, hquiet⟩

/-! ## The views after a reset -/

section Run

variable {s : Ps2Receive C} {u : ℕ → Ports}

theorem run_clk (n : ℕ) :
    (run step s u n).clk = run Debounce.step s.clk (fun k => (u k).clkPorts) n :=
  run_proj Ps2Receive.clk (fun _ i => i.clkPorts) (fun _ _ => rfl) s u n

theorem run_dat (n : ℕ) :
    (run step s u n).dat = run Debounce.step s.dat (fun k => (u k).datPorts) n :=
  run_proj Ps2Receive.dat (fun _ i => i.datPorts) (fun _ _ => rfl) s u n

theorem run_regs (hu : ∀ k, (u k).clock_sreset = false) (n : ℕ) :
    (run step s u n).regs = run Ps2Fsm.step s.regs (fun k => (run step s u k).view) n := by
  refine run_proj_of Ps2Receive.regs (fun t _ => t.view) ?_
  intro k _
  exact step_regs (hu k)

/-- A view of the clock is its level on the last `CYCLES + 1` samples. -/
theorem view_clk (hC : 2 ≤ C) (hs : s.clk.Cleared) (hu : ∀ k, (u k).clock_sreset = false) {n : ℕ}
    {c d : Bool} (hv : (run step s u n).view = some (c, d)) :
    C ≤ n ∧ ∀ j, n ≤ j + C → j ≤ n → Debounce.samples s.clk (fun k => (u k).clkPorts) j = c := by
  obtain ⟨hvalid, _, hout, _⟩ := view_eq_some_iff.mp hv
  rw [run_clk] at hvalid hout
  rw [← hout]
  exact Debounce.streak_of_valid hu hC hs hvalid

/-- A view of the data is its level on the last `CYCLES + 1` samples. -/
theorem view_dat (hC : 2 ≤ C) (hs : s.dat.Cleared) (hu : ∀ k, (u k).clock_sreset = false) {n : ℕ}
    {c d : Bool} (hv : (run step s u n).view = some (c, d)) :
    C ≤ n ∧ ∀ j, n ≤ j + C → j ≤ n → Debounce.samples s.dat (fun k => (u k).datPorts) j = d := by
  obtain ⟨_, hvalid, _, hout⟩ := view_eq_some_iff.mp hv
  rw [run_dat] at hvalid hout
  rw [← hout]
  exact Debounce.streak_of_valid hu hC hs hvalid

/-- Both lines constant for `CYCLES + 1` samples give a view. -/
theorem view_eq_some (hC : 2 ≤ C) (hs : s.Released) (hu : ∀ k, (u k).clock_sreset = false)
    {n : ℕ} {c d : Bool} (hn : C ≤ n)
    (hc : ∀ j, n ≤ j + C → j ≤ n → Debounce.samples s.clk (fun k => (u k).clkPorts) j = c)
    (hd : ∀ j, n ≤ j + C → j ≤ n → Debounce.samples s.dat (fun k => (u k).datPorts) j = d) :
    (run step s u n).view = some (c, d) := by
  have hclk : ∀ k, ((u k).clkPorts).clock_sreset = false := hu
  have hdat : ∀ k, ((u k).datPorts).clock_sreset = false := hu
  have hcn := hc n (by omega) (le_refl n)
  have hdn := hd n (by omega) (le_refl n)
  have hcv : (run step s u n).clk.valid_out = true := by
    rw [run_clk, Debounce.run_valid_out hclk hC hs.clk, le_streak_iff]
    exact ⟨hn, fun j hj hjn => by rw [hc j hj hjn, hcn]⟩
  have hdv : (run step s u n).dat.valid_out = true := by
    rw [run_dat, Debounce.run_valid_out hdat hC hs.dat, le_streak_iff]
    exact ⟨hn, fun j hj hjn => by rw [hd j hj hjn, hdn]⟩
  have hco : (run step s u n).clk.out = c := by
    rw [run_clk] at hcv ⊢
    rw [Debounce.run_out hclk hs.clk hcv, hcn]
  have hdo : (run step s u n).dat.out = d := by
    rw [run_dat] at hdv ⊢
    rw [Debounce.run_out hdat hs.dat hdv, hdn]
  exact view_eq_some_iff.mpr ⟨hcv, hdv, hco, hdo⟩

end Run

end Ps2Receive

end OneBitSDR
