import OneBitSDR.Ps2.Keyboard
import OneBitSDR.Ps2.Receive

set_option autoImplicit false

/-! # Reception from the raw PS/2 lines

The keyboard pulls the clock low and lets it rise once for each bit, and changes the data while
the clock is high. If every phase lasts `CYCLES + 8` clocks, five of which the samples take to
reach the debouncers' outputs, each bit gives the state machine a low view, then a high view
with the same bit, and two more views to finish a frame in before the clock falls again.
-/

namespace OneBitSDR

open Clocked

/-! ## Frames on the lines -/

/-- An eleven-bit frame with a start bit, and the lengths of the two phases of each bit. -/
structure Ps2Frame (C : ℕ) where
  word : BitVec 11
  low : ℕ → ℕ
  high : ℕ → ℕ
  start_bit : word.getLsbD 0 = false
  low_ge : ∀ i, C + 8 ≤ low i
  high_ge : ∀ i, C + 8 ≤ high i

namespace Ps2Frame

variable {C : ℕ}

/-- The first clock of bit `i`, counted from the start of the frame. -/
def offset (F : Ps2Frame C) : ℕ → ℕ
  | 0 => 0
  | i + 1 => F.offset i + (F.low i + F.high i)

/-- The length of the frame, with the pause after it. -/
def length (F : Ps2Frame C) : ℕ := F.offset 11

/-- The scancode. -/
def scancode (F : Ps2Frame C) : BitVec 8 := F.word.extractLsb' 1 8

end Ps2Frame

/-- One bit on the lines from clock `f` on. The data may change only after `C + 8` clocks of the
high phase. -/
structure BitSent (C : ℕ) (clk dat : ℕ → Bool) (b : Bool) (f low high : ℕ) : Prop where
  low_phase : ∀ k < low, clk (f + k) = false ∧ dat (f + k) = b
  high_phase : ∀ k < high, clk (f + low + k) = true
  hold : ∀ k < C + 8, dat (f + low + k) = b

/-- The frame on the lines from clock `f` on. -/
def Ps2Frame.SentAt {C : ℕ} (F : Ps2Frame C) (clk dat : ℕ → Bool) (f : ℕ) : Prop :=
  ∀ i < 11, BitSent C clk dat (F.word.getLsbD i) (f + F.offset i) (F.low i) (F.high i)

/-- Frames on the lines, one after the other from clock `f` on. -/
def FramesSent {C : ℕ} (clk dat : ℕ → Bool) : ℕ → List (Ps2Frame C) → Prop
  | _, [] => True
  | f, F :: frames => F.SentAt clk dat f ∧ FramesSent clk dat (f + F.length) frames

def totalLength {C : ℕ} (frames : List (Ps2Frame C)) : ℕ := (frames.map Ps2Frame.length).sum

/-! ## Views of the lines -/

/-- What the debouncers tell of the lines: a view needs `C + 1` equal samples, the last one five
clocks old, and none comes before the first `C` clocks have passed. -/
structure Sees (C : ℕ) (clk dat : ℕ → Bool) (v : ℕ → View) : Prop where
  constant : ∀ k c d, C + 5 ≤ k →
    (∀ j, j + 5 ≤ k → k ≤ j + C + 5 → clk j = c ∧ dat j = d) → v k = some (c, d)
  mixed : ∀ k j c, j + 5 ≤ k → k ≤ j + C + 5 → clk j = !c → Ps2Fsm.Without c (v k)
  early : ∀ k < C, ∀ c, Ps2Fsm.Without c (v k)

/-- The views of the receiver after a reset. -/
theorem Ps2Receive.sees {C : ℕ} (hC : 2 ≤ C) {s : Ps2Receive C} (hs : s.Released)
    {u : ℕ → Ports} (hu : ∀ k, (u k).clock_sreset = false) :
    Sees C (fun k => (u k).ps2_clk) (fun k => (u k).ps2_dat)
      (fun k => (run step s u k).view) := by
  refine ⟨?_, ?_, ?_⟩
  · intro k c d hk hconst
    apply view_eq_some hC hs hu (by omega)
    · intro j hj hjk
      rcases Nat.exists_eq_add_of_le' (show 5 ≤ j by omega) with ⟨j, rfl⟩
      exact (hconst j hjk (by omega)).1
    · intro j hj hjk
      rcases Nat.exists_eq_add_of_le' (show 5 ≤ j by omega) with ⟨j, rfl⟩
      exact (hconst j hjk (by omega)).2
  · intro k j c hj hjk hclk d hv
    have hsample : (u j).ps2_clk = c := (view_clk hC hs.clk hu hv).2 (j + 5) (by omega) hj
    rw [hsample] at hclk
    cases c <;> cases hclk
  · intro k hk c d hv
    have hle := (view_clk hC hs.clk hu hv).1
    omega

section Bits

variable {C : ℕ} {clk dat : ℕ → Bool} {v : ℕ → View}

/-- The views of one bit, if the clock was high before it. -/
theorem BitSent.bitViews {b : Bool} {f low high : ℕ} (h : BitSent C clk dat b f low high)
    (hv : Sees C clk dat v) (hf : 5 ≤ f) (hprev : ∀ j < f, f ≤ j + 5 → clk j = true)
    (hlow : C + 8 ≤ low) (hhigh : C + 8 ≤ high) :
    Ps2Fsm.BitViews b (C + 5) (low + C + 5) (low + high) (fun k => v (f + k)) := by
  have hclklow : ∀ j, f ≤ j → j < f + low → clk j = false := by
    intro j hj hjl
    rcases Nat.exists_eq_add_of_le hj with ⟨k, rfl⟩
    exact (h.low_phase k (by omega)).1
  have hclkhigh : ∀ j, f + low ≤ j → j < f + low + high → clk j = true := by
    intro j hj hjh
    rcases Nat.exists_eq_add_of_le hj with ⟨k, rfl⟩
    exact h.high_phase k (by omega)
  -- the data are those of the bit in the low phase and the first `C + 8` clocks of the high one
  have hdat : ∀ j, f ≤ j → j < f + low + (C + 8) → dat j = b := by
    intro j hj hjl
    rcases Nat.exists_eq_add_of_le hj with ⟨k, rfl⟩
    by_cases hk : k < low
    · exact (h.low_phase k hk).2
    · rcases Nat.exists_eq_add_of_le (show low ≤ k by omega) with ⟨i, rfl⟩
      rw [← Nat.add_assoc]
      exact h.hold i (by omega)
  refine ⟨?_, ?_, ?_, ?_, ?_⟩
  · -- a sample of the high phase before is still in the window
    intro k hk
    by_cases h5 : k < 5
    · exact hv.mixed (f + k) (f + k - 5) false (by omega) (by omega)
        (hprev _ (by omega) (by omega))
    · exact hv.mixed (f + k) (f - 1) false (by omega) (by omega) (hprev _ (by omega) (by omega))
  · apply hv.constant _ _ _ (by omega)
    intro j hj hjk
    exact ⟨hclklow j (by omega) (by omega), hdat j (by omega) (by omega)⟩
  · -- the oldest sample of the window is of the low phase
    intro k hk hkl
    exact hv.mixed (f + k) (f + k - (C + 5)) true (by omega) (by omega)
      (hclklow _ (by omega) (by omega))
  · intro k hk hk3
    apply hv.constant _ _ _ (by omega)
    intro j hj hjk
    exact ⟨hclkhigh j (by omega) (by omega), hdat j (by omega) (by omega)⟩
  · intro k hk hks
    exact hv.mixed (f + k) (f + k - (C + 5)) false (by omega) (by omega)
      (hclkhigh _ (by omega) (by omega))

/-- The clock was high in the five clocks before a bit and is so before the next one. -/
theorem BitSent.high_before {b : Bool} {f low high : ℕ} (h : BitSent C clk dat b f low high)
    (hhigh : 5 ≤ high) : ∀ j < f + (low + high), f + (low + high) ≤ j + 5 → clk j = true := by
  intro j hj hj5
  rcases Nat.exists_eq_add_of_le (show f + low ≤ j by omega) with ⟨k, rfl⟩
  exact h.high_phase k (by omega)

/-- The first `i` bits of a frame. -/
theorem Ps2Frame.bits_deliver {F : Ps2Frame C} {f : ℕ} (hsent : F.SentAt clk dat f)
    (hv : Sees C clk dat v) (hf : 5 ≤ f) (hprev : ∀ j < f, f ≤ j + 5 → clk j = true) {m : Ps2Fsm}
    (hm : Ps2Fsm.Ready F.word 0 m) {i : ℕ} (hi : i ≤ 10) :
    Delivers Ps2Fsm.step Ps2Fsm.emits m (fun k => v (f + k)) (F.offset i)
        (Ps2Fsm.Ready F.word i) [] ∧
      ∀ j < f + F.offset i, f + F.offset i ≤ j + 5 → clk j = true := by
  induction i with
  | zero => exact ⟨Delivers.zero hm, hprev⟩
  | succ i ih =>
      obtain ⟨hdeliver, hbefore⟩ := ih (by omega)
      have hlow := F.low_ge i
      have hhigh := F.high_ge i
      have hbit := hsent i (by omega)
      have hviews := hbit.bitViews hv (by omega) hbefore hlow hhigh
      constructor
      · refine hdeliver.silent_seq ?_
        intro t ht
        simp only [← Nat.add_assoc]
        exact Ps2Fsm.bit_delivers ht F.start_bit (by omega) (by omega) (by omega) hviews
      · rw [offset, ← Nat.add_assoc]
        exact hbit.high_before (by omega)

/-- A frame delivers its word, and the machine is ready for the next one. -/
theorem Ps2Frame.delivers {F : Ps2Frame C} {f : ℕ} (hsent : F.SentAt clk dat f)
    (hv : Sees C clk dat v) (hf : 5 ≤ f) (hprev : ∀ j < f, f ≤ j + 5 → clk j = true) {m : Ps2Fsm}
    (hm : m.Resting) :
    Delivers Ps2Fsm.step Ps2Fsm.emits m (fun k => v (f + k)) F.length Ps2Fsm.Resting [F.word] ∧
      ∀ j < f + F.length, f + F.length ≤ j + 5 → clk j = true := by
  have hready := (Ps2Fsm.resting_iff F.word m).mp hm
  obtain ⟨hdeliver, hbefore⟩ := F.bits_deliver hsent hv hf hprev hready (le_refl 10)
  have hlow := F.low_ge 10
  have hhigh := F.high_ge 10
  have hbit := hsent 10 (by omega)
  have hviews := hbit.bitViews hv (by omega) hbefore hlow hhigh
  unfold length
  constructor
  · refine hdeliver.silent_seq ?_
    intro t ht
    simp only [← Nat.add_assoc]
    exact Ps2Fsm.last_bit_delivers ht F.start_bit (by omega) (by omega) hviews
  · rw [offset, ← Nat.add_assoc]
    exact hbit.high_before (by omega)

/-- Any number of frames. -/
theorem frames_deliver {frames : List (Ps2Frame C)} {f : ℕ} (hsent : FramesSent clk dat f frames)
    (hv : Sees C clk dat v) (hf : 5 ≤ f) (hprev : ∀ j < f, f ≤ j + 5 → clk j = true) {m : Ps2Fsm}
    (hm : m.Resting) :
    Delivers Ps2Fsm.step Ps2Fsm.emits m (fun k => v (f + k)) (totalLength frames)
      Ps2Fsm.Resting (frames.map Ps2Frame.word) := by
  induction frames generalizing f m with
  | nil => exact Delivers.zero hm
  | cons F frames ih =>
      rcases hsent with ⟨hfirst, hrest⟩
      obtain ⟨hdeliver, hbefore⟩ := F.delivers hfirst hv hf hprev hm
      have hlength : totalLength (F :: frames) = F.length + totalLength frames := by
        unfold totalLength
        rw [List.map_cons, List.sum_cons]
      rw [hlength]
      refine hdeliver.seq (n := F.length) ?_
      intro t ht
      simp only [← Nat.add_assoc]
      exact ih hrest (by omega) hbefore ht

end Bits

/-! ## The receiver -/

/-- After a reset and a pause with a high clock, the receiver announces the words of the frames,
each one in one clock and in order. -/
theorem Ps2Receive.frames_received {C : ℕ} (hC : 8 ≤ C) {s : Ps2Receive C} (hs : s.Released)
    {u : ℕ → Ports} (hu : ∀ k, (u k).clock_sreset = false) {f : ℕ} (hf : C + 8 ≤ f)
    (hidle : ∀ k < f, (u k).ps2_clk = true) {frames : List (Ps2Frame C)}
    (hsent : FramesSent (fun k => (u k).ps2_clk) (fun k => (u k).ps2_dat) f frames) :
    events (fun k => (run step s u k).received) (f + totalLength frames)
      = frames.map Ps2Frame.word := by
  have hsees := Ps2Receive.sees (by omega) hs hu
  have hrest : s.regs.Resting := ⟨hs.fsm, hs.quiet⟩
  have hpause : Delivers Ps2Fsm.step Ps2Fsm.emits s.regs (fun k => (run step s u k).view) f
      Ps2Fsm.Resting [] := by
    apply Ps2Fsm.resting_delivers hrest
    intro k hk
    -- the debouncers need `C` clocks before they say anything, and have seen the pause by then
    by_cases hearly : k < C
    · exact hsees.early k hearly false
    · exact hsees.mixed k (k - 5) false (by omega) (by omega) (hidle _ (by omega))
  have hframes := hpause.silent_seq (fun t ht => frames_deliver hsent hsees (by omega)
    (fun j hj _ => hidle j hj) ht)
  rw [← hframes.events_eq]
  apply events_congr
  intro k _
  rw [← run_regs hu]
  rfl

/-! ## The keyboard module -/

/-- `ps2_keyboard`: the receiver and the register file behind it. -/
structure KeyboardModule (CYCLES : ℕ) where
  ps2_rx : Ps2Receive CYCLES
  file : Ps2Keyboard

namespace KeyboardModule

/-- The input ports: those of the receiver, which include the reset, and those of the bus. -/
structure Ports where
  rx : Ps2Receive.Ports
  s_address : BitVec 4
  s_writedata : BitVec 32
  s_read : Bool
  s_write : Bool

variable {C : ℕ}

/-- The ports of the register file. -/
def filePorts (s : KeyboardModule C) (i : Ports) : Ps2Keyboard.Ports where
  clock_sreset := i.rx.clock_sreset
  s_address := i.s_address
  s_writedata := i.s_writedata
  s_read := i.s_read
  s_write := i.s_write
  ps2_data := s.ps2_rx.regs.data_out
  ps2_data_valid := s.ps2_rx.regs.data_valid

/-- One rising edge of `clock`. -/
def step (s : KeyboardModule C) (i : Ports) : KeyboardModule C where
  ps2_rx := s.ps2_rx.step i.rx
  file := s.file.step (s.filePorts i)

theorem run_ps2_rx (s : KeyboardModule C) (u : ℕ → Ports) (n : ℕ) :
    (run step s u n).ps2_rx = run Ps2Receive.step s.ps2_rx (fun k => (u k).rx) n :=
  run_proj KeyboardModule.ps2_rx (fun _ i => i.rx) (fun _ _ => rfl) s u n

/-- In the clock after `data_valid`, `data_reg` is the scancode. -/
theorem data_reg_of_valid (s : KeyboardModule C) {i : Ports} (h : i.rx.clock_sreset = false) :
    (if s.ps2_rx.regs.data_valid then some (s.step i).file.data_reg else none)
      = s.ps2_rx.received.map (BitVec.extractLsb' 1 8) := by
  have hreg := Ps2Keyboard.step_data_reg s.file (i := s.filePorts i) h
  unfold Ps2Receive.received
  cases hv : s.ps2_rx.regs.data_valid with
  | true =>
      have hstep : (s.step i).file.data_reg = s.ps2_rx.regs.data_out.extractLsb' 1 8 := by
        rw [show (s.step i).file = s.file.step (s.filePorts i) from rfl, hreg]
        exact if_pos hv
      rw [if_pos rfl, if_pos rfl, hstep]
      rfl
  | false => rfl

/-- **Reception from the raw lines.** From power-up, after a reset, with the clock line high for
at least `C + 8` clocks and then any number of frames, `data_valid` is high in exactly one clock
for each frame and in order, with the eleven bits of the frame in `data_out`, and after that
clock `data_reg` is the scancode. -/
theorem ps2_frames_received (hC : 8 ≤ C) (s : KeyboardModule C) (hfsm : s.ps2_rx.regs.fsm = .S1)
    (u : ℕ → Ports) {r : ℕ} (hr : 0 < r) (hreset : ∀ k < r, (u k).rx.clock_sreset = true)
    (hrun : ∀ k, (u (r + k)).rx.clock_sreset = false) {f : ℕ} (hf : C + 8 ≤ f)
    (hidle : ∀ k < f, (u (r + k)).rx.ps2_clk = true) (frames : List (Ps2Frame C))
    (hsent : FramesSent (fun k => (u (r + k)).rx.ps2_clk) (fun k => (u (r + k)).rx.ps2_dat) f
      frames) :
    events (fun k => (run step s u (r + k)).ps2_rx.received) (f + totalLength frames)
        = frames.map Ps2Frame.word ∧
      events (fun k => if (run step s u (r + k)).ps2_rx.regs.data_valid then
          some (run step s u (r + k + 1)).file.data_reg else none) (f + totalLength frames)
        = frames.map Ps2Frame.scancode := by
  have hreleased : (run Ps2Receive.step s.ps2_rx (fun k => (u k).rx) r).Released :=
    Ps2Receive.released_of_reset hfsm hr hreset
  have hwords : events (fun k => (run step s u (r + k)).ps2_rx.received) (f + totalLength frames)
      = frames.map Ps2Frame.word := by
    rw [← Ps2Receive.frames_received hC hreleased (u := fun k => (u (r + k)).rx) hrun hf hidle
      hsent]
    simp only [run_ps2_rx, run_add]
  refine ⟨hwords, ?_⟩
  have hcodes : frames.map Ps2Frame.scancode
      = (frames.map Ps2Frame.word).map (BitVec.extractLsb' 1 8) := by
    rw [List.map_map]
    rfl
  rw [hcodes, ← hwords, ← events_map]
  apply events_congr
  intro k _
  rw [run_succ]
  exact data_reg_of_valid _ (hrun k)

/-! ### One frame -/

/-- The frame of the key `+`, all phases 508 clocks long. -/
def plusFrame : Ps2Frame (debounceCycles 100000000 5) where
  word := 0x6aa
  low := fun _ => 508
  high := fun _ => 508
  start_bit := rfl
  low_ge := fun _ => by decide
  high_ge := fun _ => by decide

/-- A clock of reset, 508 clocks of pause, and the frame; the bus is idle. -/
def plusPorts (n : ℕ) : Ports where
  rx :=
    { clock_sreset := n == 0
      ps2_clk := decide (n < 509 ∨ 508 ≤ (n - 509) % 1016)
      ps2_dat := decide (n < 509) || (0x6aa : BitVec 11).getLsbD ((n - 509) / 1016)
      dontcare_clk := false
      dontcare_dat := false
      dontcare := 0 }
  s_address := 0
  s_writedata := 0
  s_read := false
  s_write := false

theorem plusFrame_offset (i : ℕ) : plusFrame.offset i = 1016 * i := by
  induction i with
  | zero => rfl
  | succ i ih =>
      rw [Ps2Frame.offset, ih]
      show 1016 * i + (508 + 508) = 1016 * (i + 1)
      omega

theorem plusFrame_sent :
    FramesSent (fun k => (plusPorts (1 + k)).rx.ps2_clk) (fun k => (plusPorts (1 + k)).rx.ps2_dat)
      508 [plusFrame] := by
  have hlevel : ∀ i k, k < 1016 →
      (plusPorts (1 + (508 + 1016 * i + k))).rx.ps2_clk = decide (508 ≤ k) ∧
      (plusPorts (1 + (508 + 1016 * i + k))).rx.ps2_dat = plusFrame.word.getLsbD i := by
    intro i k hk
    have hmod : (1 + (508 + 1016 * i + k) - 509) % 1016 = k := by omega
    have hdiv : (1 + (508 + 1016 * i + k) - 509) / 1016 = i := by omega
    have hlt : ¬ 1 + (508 + 1016 * i + k) < 509 := by omega
    unfold plusPorts
    simp only [hmod, hdiv, hlt, false_or, decide_false, Bool.false_or]
    exact ⟨trivial, rfl⟩
  refine ⟨?_, trivial⟩
  intro i _
  rw [plusFrame_offset]
  refine ⟨?_, ?_, ?_⟩
  · intro k hk
    have hk' : k < 508 := hk
    obtain ⟨hclk, hdat⟩ := hlevel i k (by omega)
    rw [hclk, hdat]
    exact ⟨decide_eq_false (by omega), rfl⟩
  · intro k hk
    have hk' : k < 508 := hk
    have hclk := (hlevel i (508 + k) (by omega)).1
    rw [← Nat.add_assoc (508 + 1016 * i) 508 k] at hclk
    exact hclk.trans (decide_eq_true (by omega))
  · intro k hk
    rw [show debounceCycles 100000000 5 = 500 by decide] at hk
    have hdat := (hlevel i (508 + k) (by omega)).2
    rw [← Nat.add_assoc (508 + 1016 * i) 508 k] at hdat
    exact hdat

/-- Every register cleared. -/
def poweredUp : KeyboardModule (debounceCycles 100000000 5) where
  ps2_rx :=
    { clk := { counter := 0, meta_sample := 0, in_reg := false, last_in_reg := false, out := false,
               valid_out := false }
      dat := { counter := 0, meta_sample := 0, in_reg := false, last_in_reg := false, out := false,
               valid_out := false }
      regs := { fsm := .S1, counter := 0, data_valid := false, data_out := 0 } }
  file := Ps2Keyboard.poweredUp

theorem ps2_frames_received_plus :
    events (fun k => (run step poweredUp plusPorts (1 + k)).ps2_rx.received)
        (508 + totalLength [plusFrame]) = [0x6aa] ∧
      events (fun k => if (run step poweredUp plusPorts (1 + k)).ps2_rx.regs.data_valid then
          some (run step poweredUp plusPorts (1 + k + 1)).file.data_reg else none)
        (508 + totalLength [plusFrame]) = [0x55] := by
  refine ps2_frames_received (by decide) poweredUp rfl plusPorts (by omega) ?_ ?_ (by decide) ?_
    [plusFrame] plusFrame_sent
  · intro k hk
    rw [show k = 0 by omega]
    rfl
  · intro k
    unfold plusPorts
    simp
  · intro k hk
    unfold plusPorts
    simp only [decide_eq_true_eq]
    omega

end KeyboardModule

end OneBitSDR
