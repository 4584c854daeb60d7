import OneBitSDR.Ps2.Reception
import OneBitSDR.Ps2.WordRate
import OneBitSDR.Software.Ps2Key

set_option autoImplicit false

/-! # From the PS/2 lines to the program

The keyboard module with the processor on its bus. The receiver cannot announce two words within
21 times `CYCLES + 1` clocks, and the processor needs less than that for a key if it gets to its
next access soon enough. Then what is typed is what `wait_ps2_key` returns.
-/

namespace OneBitSDR

open Clocked

/-- `ps2_keyboard` and the processor. -/
structure KeyConsole (CYCLES : ℕ) where
  module : KeyboardModule CYCLES
  call : WaitPs2Key

namespace KeyConsole

/-- What a clock brings out of reset: the two lines, whether the processor gets to the next access,
and what is on the bus between two accesses. -/
structure Ports where
  rx : Ps2Receive.Ports
  go : Bool
  s_address : BitVec 4
  s_writedata : BitVec 32

variable {C : ℕ}

/-- The register file with the processor on its bus. -/
def polling (s : KeyConsole C) : KeyPolling where
  keyboard := s.module.file
  call := s.call

/-- What the receiver and the processor bring to the bus. -/
def keyPorts (s : KeyConsole C) (i : Ports) : KeyPolling.Ports where
  go := i.go
  s_address := i.s_address
  s_writedata := i.s_writedata
  ps2_data := s.module.ps2_rx.regs.data_out
  ps2_data_valid := s.module.ps2_rx.regs.data_valid

/-- The ports of the module. -/
def modulePorts (s : KeyConsole C) (i : Ports) : KeyboardModule.Ports where
  rx := i.rx
  s_address := (s.polling.bus (s.keyPorts i)).s_address
  s_writedata := (s.polling.bus (s.keyPorts i)).s_writedata
  s_read := (s.polling.bus (s.keyPorts i)).s_read
  s_write := (s.polling.bus (s.keyPorts i)).s_write

/-- One rising edge of `clock`. -/
def step (s : KeyConsole C) (i : Ports) : KeyConsole C where
  module := s.module.step (s.modulePorts i)
  call := (s.polling.step (s.keyPorts i)).call

/-- The value with which a call returns at the edge. -/
def returned (s : KeyConsole C) (i : Ports) : Option (BitVec 32) :=
  s.polling.returned (s.keyPorts i)

section Run

variable {s : KeyConsole C} {u : ℕ → Ports} (hu : ∀ k, (u k).rx.clock_sreset = false)

theorem run_ps2_rx (s : KeyConsole C) (u : ℕ → Ports) (n : ℕ) :
    (run step s u n).module.ps2_rx = run Ps2Receive.step s.module.ps2_rx (fun k => (u k).rx) n :=
  run_proj (fun t : KeyConsole C => t.module.ps2_rx) (fun _ i => i.rx) (fun _ _ => rfl) s u n

/-- What the processor and the register file see of the lines. -/
def seenKeys (s : KeyConsole C) (u : ℕ → Ports) (k : ℕ) : KeyPolling.Ports :=
  (run step s u k).keyPorts (u k)

theorem seenKeys_scancode (k : ℕ) :
    (seenKeys s u k).scancode
      = (run Ps2Receive.step s.module.ps2_rx (fun k => (u k).rx) k).received.map
          (BitVec.extractLsb' 1 8) := by
  rw [← run_ps2_rx]
  unfold seenKeys keyPorts KeyPolling.Ports.scancode Ps2Receive.received
  dsimp only
  cases (run step s u k).module.ps2_rx.regs.data_valid <;> rfl

include hu

/-- Out of reset the console is the processor polling what the receiver announces. -/
theorem run_polling (n : ℕ) :
    (run step s u n).polling = run KeyPolling.step s.polling (seenKeys s u) n := by
  refine run_proj_of polling (fun t i => t.keyPorts i) ?_
  intro k _
  show KeyPolling.mk _ _ = KeyPolling.step _ _
  unfold KeyPolling.step
  congr 1
  show Ps2Keyboard.step _ _ = Ps2Keyboard.step _ _
  congr 1
  unfold KeyboardModule.filePorts modulePorts KeyPolling.bus
  dsimp only
  rw [hu k]
  rfl

end Run

/-! ## The keys of the lines -/

section Keys

variable {s : KeyConsole C} {u : ℕ → Ports}

theorem seenKeys_ne_none {a : ℕ} :
    (seenKeys s u a).scancode ≠ none ↔
      (run Ps2Receive.step s.module.ps2_rx (fun k => (u k).rx) a).regs.data_valid = true := by
  rw [seenKeys_scancode]
  unfold Ps2Receive.received
  cases (run Ps2Receive.step s.module.ps2_rx (fun k => (u k).rx) a).regs.data_valid <;> simp

/-- The calls return what the receiver announces, but for a word of the last clocks. -/
theorem words_returned (hC : 2 ≤ C) (hrx : s.module.ps2_rx.Released) (hs : s.polling.Start)
    (hu : ∀ k, (u k).rx.clock_sreset = false) {D : ℕ} (hD : 3 * D + 5 ≤ 21 * (C + 1))
    (hgo : ∀ n, ∃ j, n ≤ j ∧ j ≤ n + D ∧ (u j).go = true) (n : ℕ) :
    KeyPolling.returns s.polling (seenKeys s u) n = KeyPolling.keys (seenKeys s u) n ∨
      (∃ a < n, n ≤ a + 3 * D + 6 ∧ (seenKeys s u a).scancode ≠ none) ∧
        KeyPolling.returns s.polling (seenKeys s u) n
          = (KeyPolling.keys (seenKeys s u) n).dropLast := by
  obtain ⟨wait, hwait, hnext, -⟩ := exists_wait hgo
  have hfirst := hwait 0
  refine (KeyPolling.run_progress hs hwait hnext ?_ ?_ n).returns_eq
  · intro a ha
    rw [seenKeys_ne_none] at ha
    have hpos : 0 < a := by
      by_contra hzero
      rw [show a = 0 by omega, run_zero, hrx.quiet] at ha
      cases ha
    have := Ps2Receive.valid_after hC hrx.clk hu (u := fun k => (u k).rx) hpos hrx.fsm ha
    omega
  · intro a b ha hb hab
    rw [seenKeys_ne_none] at ha hb
    have := Ps2Receive.valid_after hC hrx.clk hu (u := fun k => (u k).rx) hab
      (Ps2Receive.fsm_of_data_valid hrx.quiet hu ha) hb
    omega

theorem events_returned (hu : ∀ k, (u k).rx.clock_sreset = false) (n : ℕ) :
    events (fun k => (run step s u k).returned (u k)) n
      = KeyPolling.returns s.polling (seenKeys s u) n := by
  apply events_congr
  intro k _
  unfold returned
  rw [run_polling hu]
  rfl

theorem keys_seen (n : ℕ) :
    KeyPolling.keys (seenKeys s u) n
      = (events (fun k => (run Ps2Receive.step s.module.ps2_rx (fun k => (u k).rx) k).received)
          n).map (fun w => (w.extractLsb' 1 8).setWidth 32) := by
  unfold KeyPolling.keys
  rw [show (fun k => (seenKeys s u k).scancode)
    = fun k => ((run Ps2Receive.step s.module.ps2_rx (fun k => (u k).rx) k).received).map
        (BitVec.extractLsb' 1 8) from funext (fun k => seenKeys_scancode k),
    events_map, List.map_map]
  rfl

end Keys

/-! ## Frames on the lines -/

section Frames

variable {clk dat : ℕ → Bool} {v : ℕ → View} {f : ℕ}

/-- The clock is high before the first frame and after the last one. -/
theorem high_after_frames {frames : List (Ps2Frame C)} (hsent : FramesSent clk dat f frames)
    (hprev : ∀ j < f, f ≤ j + 5 → clk j = true) :
    ∀ j < f + totalLength frames, f + totalLength frames ≤ j + 5 → clk j = true := by
  induction frames generalizing f with
  | nil => exact hprev
  | cons F frames ih =>
      obtain ⟨hfirst, hrest⟩ := hsent
      have hhigh := F.high_ge 10
      have hlength : totalLength (F :: frames) = F.length + totalLength frames := by
        unfold totalLength
        rw [List.map_cons, List.sum_cons]
      rw [hlength, ← Nat.add_assoc]
      apply ih hrest
      rw [Ps2Frame.length, Ps2Frame.offset, ← Nat.add_assoc]
      exact (hfirst 10 (by omega)).high_before (by omega)

/-- A resting machine while the clock is high. -/
theorem quiet_delivers (hv : Sees C clk dat v) {m : Ps2Fsm} (hm : m.Resting) {t q : ℕ}
    (hclk : ∀ k < q, t + k < C ∨ 5 ≤ t + k ∧ clk (t + k - 5) = true) :
    Delivers Ps2Fsm.step Ps2Fsm.emits m (fun k => v (t + k)) q Ps2Fsm.Resting [] := by
  apply Ps2Fsm.resting_delivers hm
  intro k hk
  rcases hclk k hk with hearly | ⟨h5, hhigh⟩
  · exact hv.early _ hearly false
  · exact hv.mixed _ (t + k - 5) false (by omega) (by omega) hhigh

/-- Frames with a pause before and after them. -/
theorem frames_received_quiet (hC : 8 ≤ C) {s : Ps2Receive C} (hs : s.Released)
    {u : ℕ → Ps2Receive.Ports} (hu : ∀ k, (u k).clock_sreset = false) (hf : C + 8 ≤ f)
    (hidle : ∀ k < f, (u k).ps2_clk = true) {frames : List (Ps2Frame C)}
    (hsent : FramesSent (fun k => (u k).ps2_clk) (fun k => (u k).ps2_dat) f frames) {q : ℕ}
    (hquiet : ∀ k < q, (u (f + totalLength frames + k)).ps2_clk = true) :
    events (fun k => (run Ps2Receive.step s u k).received) (f + totalLength frames + q)
      = frames.map Ps2Frame.word := by
  have hsees := Ps2Receive.sees (by omega) hs hu
  have hbefore := high_after_frames hsent (fun j hj _ => hidle j hj)
  have hpause : Delivers Ps2Fsm.step Ps2Fsm.emits s.regs
      (fun k => (run Ps2Receive.step s u k).view) f Ps2Fsm.Resting [] := by
    have hzero := quiet_delivers (t := 0) (q := f) hsees ⟨hs.fsm, hs.quiet⟩ (by
      intro k hk
      by_cases hearly : k < C
      · exact Or.inl (by omega)
      · exact Or.inr ⟨by omega, hidle _ (by omega)⟩)
    simpa only [Nat.zero_add] using hzero
  have hframes := hpause.silent_seq (fun t ht => frames_deliver hsent hsees (by omega)
    (fun j hj _ => hidle j hj) ht)
  have hrest : ∀ t, Ps2Fsm.Resting t → Delivers Ps2Fsm.step Ps2Fsm.emits t
      (fun k => (run Ps2Receive.step s u (f + totalLength frames + k)).view) q
      Ps2Fsm.Resting [] := by
    intro t ht
    refine quiet_delivers hsees ht ?_
    intro k hk
    right
    refine ⟨by omega, ?_⟩
    by_cases h5 : k < 5
    · exact hbefore _ (by omega) (by omega)
    · have hlater := hquiet (k - 5) (by omega)
      rw [show f + totalLength frames + (k - 5) = f + totalLength frames + k - 5 by omega] at hlater
      exact hlater
  have hall := hframes.seq hrest
  rw [List.append_nil] at hall
  rw [← hall.events_eq]
  apply events_congr
  intro k _
  rw [← Ps2Receive.run_regs hu]
  rfl

end Frames

/-- **From the keyboard to the program.** After a reset that has found the receiver in `S1`, as it
is from power-up, with the clock line high for `C + 8` clocks, then any number of frames, and then a
pause of `3 D + 7` clocks: the calls of `wait_ps2_key` return the scancodes of the frames, each one
once and in order, if the processor always gets to its next access within `D` clocks. -/
theorem typed_keys_returned (hC : 8 ≤ C) (s : KeyConsole C) (hrx : s.module.ps2_rx.Released)
    (hs : s.polling.Start) (u : ℕ → Ports) (hu : ∀ k, (u k).rx.clock_sreset = false) (D : ℕ)
    (hD : 3 * D + 5 ≤ 21 * (C + 1)) (hgo : ∀ n, ∃ j, n ≤ j ∧ j ≤ n + D ∧ (u j).go = true) {f : ℕ}
    (hf : C + 8 ≤ f) (hidle : ∀ k < f, (u k).rx.ps2_clk = true) (frames : List (Ps2Frame C))
    (hsent : FramesSent (fun k => (u k).rx.ps2_clk) (fun k => (u k).rx.ps2_dat) f frames)
    (hquiet : ∀ k < 3 * D + 7, (u (f + totalLength frames + k)).rx.ps2_clk = true) :
    events (fun k => (run step s u k).returned (u k)) (f + totalLength frames + (3 * D + 7))
      = frames.map (fun F => F.scancode.setWidth 32) := by
  have hwords := frames_received_quiet hC hrx (u := fun k => (u k).rx) hu hf hidle hsent hquiet
  have hkeys : KeyPolling.keys (seenKeys s u) (f + totalLength frames + (3 * D + 7))
      = frames.map (fun F => F.scancode.setWidth 32) := by
    rw [keys_seen, hwords, List.map_map]
    rfl
  rw [events_returned hu, ← hkeys]
  rcases words_returned (by omega) hrx hs hu hD hgo (f + totalLength frames + (3 * D + 7)) with
    hall | ⟨⟨a, han, hna, ha⟩, -⟩
  · exact hall
  · -- the receiver announces no word in the pause
    have hframes := frames_received_quiet hC hrx (u := fun k => (u k).rx) hu hf hidle hsent (q := 0)
      (fun k hk => by omega)
    have hnone := eq_none_of_events_eq (hframes.trans hwords.symm) (k := a) (by omega) han
    rw [seenKeys_scancode, hnone] at ha
    exact absurd rfl ha

/-! ### The key `+` -/

/-- A pause of 508 clocks, the frame of `+`, and a pause; the processor is always ready. -/
def plusTyped (n : ℕ) : Ports where
  rx :=
    if n < 11684 then
      { (KeyboardModule.plusPorts (1 + n)).rx with clock_sreset := false }
    else
      { clock_sreset := false
        ps2_clk := true
        ps2_dat := true
        dontcare_clk := false
        dontcare_dat := false
        dontcare := 0 }
  go := true
  s_address := 0
  s_writedata := 0

def start : KeyConsole (debounceCycles 100000000 5) where
  module := KeyboardModule.poweredUp
  call := { next := .acknowledge, started := false }

theorem plusTyped_sent :
    FramesSent (fun k => (plusTyped k).rx.ps2_clk) (fun k => (plusTyped k).rx.ps2_dat) 508
      [KeyboardModule.plusFrame] := by
  obtain ⟨hsent, -⟩ := KeyboardModule.plusFrame_sent
  refine ⟨?_, trivial⟩
  intro i hi
  obtain ⟨hlow, hhigh, hhold⟩ := hsent i hi
  have hsame : ∀ k < 11684,
      (plusTyped k).rx.ps2_clk = (KeyboardModule.plusPorts (1 + k)).rx.ps2_clk ∧
      (plusTyped k).rx.ps2_dat = (KeyboardModule.plusPorts (1 + k)).rx.ps2_dat := by
    intro k hk
    unfold plusTyped
    rw [if_pos hk]
    exact ⟨rfl, rfl⟩
  have hphase : KeyboardModule.plusFrame.low i = 508 ∧ KeyboardModule.plusFrame.high i = 508 :=
    ⟨rfl, rfl⟩
  have hC : debounceCycles 100000000 5 = 500 := by decide
  rw [KeyboardModule.plusFrame_offset] at *
  refine ⟨?_, ?_, ?_⟩
  · intro k hk
    obtain ⟨hclk, hdat⟩ := hsame (508 + 1016 * i + k) (by omega)
    rw [hclk, hdat]
    exact hlow k hk
  · intro k hk
    rw [(hsame (508 + 1016 * i + KeyboardModule.plusFrame.low i + k) (by omega)).1]
    exact hhigh k hk
  · intro k hk
    rw [(hsame (508 + 1016 * i + KeyboardModule.plusFrame.low i + k) (by omega)).2]
    exact hhold k hk

theorem typed_keys_returned_plus :
    events (fun k => (run step start plusTyped k).returned (plusTyped k))
      (508 + totalLength [KeyboardModule.plusFrame] + 7) = [0x55] := by
  have hlength : totalLength [KeyboardModule.plusFrame] = 11176 :=
    KeyboardModule.plusFrame_offset 11
  refine typed_keys_returned (by decide) start
    ⟨⟨rfl, rfl, rfl, rfl⟩, ⟨rfl, rfl, rfl, rfl⟩, rfl, rfl⟩ ⟨rfl, rfl, rfl⟩ plusTyped ?_ 0 (by omega)
    (fun n => ⟨n, le_refl n, le_refl n, rfl⟩) (by decide) ?_ [KeyboardModule.plusFrame]
    plusTyped_sent ?_
  · intro k
    unfold plusTyped
    dsimp only
    split_ifs <;> rfl
  · intro k hk
    unfold plusTyped KeyboardModule.plusPorts
    dsimp only
    rw [if_pos (by omega)]
    simp only [decide_eq_true_eq]
    omega
  · intro k _
    unfold plusTyped
    dsimp only
    rw [hlength, if_neg (by omega)]

end KeyConsole

end OneBitSDR
