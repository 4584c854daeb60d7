import OneBitSDR.Lattice.SerialLine

set_option autoImplicit false

/-! # The command path of `top.v`

`top` registers the outputs of `uart_rx1` once more and applies the command of a byte in the
clock in which its own `o_Rx_DV` is high. A byte is told in one clock, so a command is applied
once. The design is built with `CLOCK_IS_83_MHZ`.
-/

namespace OneBitSDR

open Clocked

/-- The registers that commands change. -/
structure Tuned where
  CICGain : BitVec 8
  phase_inc_carrGen : BitVec 64

/-- The first `case (o_Rx_Byte)`. -/
def gainCommand (CICGain : BitVec 8) (o_Rx_Byte : BitVec 8) : BitVec 8 :=
  match o_Rx_Byte.toNat with
  | 48 => 0
  | 49 => 1
  | 50 => 2
  | 51 => 3
  | _ => CICGain

/-- The second `case (o_Rx_Byte)`: four stations, and steps of 9 kHz, 100 Hz and 1 kHz. -/
def phaseCommand (phase_inc_carrGen : BitVec 64) (o_Rx_Byte : BitVec 8) : BitVec 64 :=
  match o_Rx_Byte.toNat with
  | 97 => 0x2c6a19e88f1cfe2
  | 98 => 0x1aa60f8b8911654
  | 102 => 0x1dc38c076704516d
  | 103 => 0x1d60d923295482c6
  | 110 => phase_inc_carrGen - 0x71b375868d170
  | 109 => phase_inc_carrGen + 0x71b375868d170
  | 111 => phase_inc_carrGen - 0x1436a8cdf6f3
  | 112 => phase_inc_carrGen + 0x1436a8cdf6f3
  | 113 => phase_inc_carrGen - 0xca22980ba57e
  | 104 => phase_inc_carrGen + 0xca22980ba57e
  | _ => phase_inc_carrGen

/-- The command table. -/
def command (t : Tuned) (o_Rx_Byte : BitVec 8) : Tuned where
  CICGain := gainCommand t.CICGain o_Rx_Byte
  phase_inc_carrGen := phaseCommand t.phase_inc_carrGen o_Rx_Byte

/-- The registers of `top` on the command path. -/
structure CommandPath where
  uart_rx1 : UartRx
  o_Rx_DV : Bool
  o_Rx_Byte : BitVec 8
  tuned : Tuned
  phase_inc_carrGen1 : BitVec 64

namespace CommandPath

/-- The command to be applied by the next edge. -/
def pending (s : CommandPath) : Option (BitVec 8) :=
  if s.o_Rx_DV then some s.o_Rx_Byte else none

/-- One rising edge of `osc_clk`. -/
def step (s : CommandPath) (i_Rx_Serial : Bool) : CommandPath where
  uart_rx1 := s.uart_rx1.step 87 i_Rx_Serial
  -- registered once more, so a command is applied one clock after the byte was told
  o_Rx_DV := s.uart_rx1.o_Rx_DV
  o_Rx_Byte := s.uart_rx1.domain.fsm.o_Rx_Byte
  tuned := gated command s.tuned s.pending
  phase_inc_carrGen1 := s.tuned.phase_inc_carrGen

/-- Edge `n` of `osc_clk` is at the time `n`. -/
def serial (frames : List Frame) (n : ℕ) : Bool := line frames n

section Run

variable (s : CommandPath) (u : ℕ → Bool)

theorem run_uart_rx1 (n : ℕ) :
    (run step s u n).uart_rx1 = run (UartRx.step 87) s.uart_rx1 u n :=
  run_proj CommandPath.uart_rx1 (fun _ i => i) (fun _ _ => rfl) s u n

/-- The commands applied from edge 2 on are the bytes told by `uart_rx` from clock 1 on. -/
theorem run_tuned (n : ℕ) :
    (run step s u (2 + n)).tuned
      = (events (fun k => (run step s u (k + 1)).uart_rx1.received) n).foldl command
          (run step s u 2).tuned := by
  have hproj : ∀ (t : CommandPath) (v : ℕ → Bool), (run step t v n).tuned
      = run (gated command) t.tuned (fun k => (run step t v k).pending) n :=
    fun t v => run_proj CommandPath.tuned (fun t _ => t.pending) (fun _ _ => rfl) t v n
  rw [run_add, hproj, run_gated]
  congr 1
  apply events_congr
  intro k _
  rw [← run_add, show 2 + k = k + 1 + 1 by omega, run_succ]
  rfl

end Run

/-! ## From the line to the commands -/

/-- The line as the state machine sees it: two ticks, or 13 clocks, late. -/
theorem seen_serial {frames : List Frame} (h0 : ∀ f ∈ frames, 0 ≤ f.t0) (q : ℕ) :
    seen (fun j => serial frames (8 * j + 3)) q = line frames (-13 + 8 * q) := by
  cases q with
  | zero =>
      -- the first two ticks see the synchroniser, as high as the line before the first frame
      rw [line_before]
      · rfl
      · intro f hf
        have := h0 f hf
        push_cast
        linarith
  | succ q =>
      cases q with
      | zero =>
          rw [line_before]
          · rfl
          · intro f hf
            have := h0 f hf
            push_cast
            linarith
      | succ q =>
          show line frames ((8 * q + 3 : ℕ) : ℚ) = _
          congr 1
          push_cast
          ring

/-- `uart_rx` tells the bytes of the frames, up to 20 clocks before the end of the last one. -/
theorem events_uart_rx1 {s : CommandPath} (h : s.uart_rx1.PowerUp) {frames : List Frame}
    (hspaced : Spaced frames) (h0 : ∀ f ∈ frames, 0 ≤ f.t0) {n : ℕ}
    (hn : ∀ f ∈ frames, f.finish ≤ n + 20) :
    events (fun k => (run step s (serial frames) (k + 1)).uart_rx1.received) n
      = frames.map Frame.byte := by
  have hevents := UartRx.events_received (C := 87) h (serial frames) n
  have hticks : n < 8 * ticks 8 4 n + 8 := by
    unfold ticks
    omega
  have hticks' : (n : ℚ) < 8 * (ticks 8 4 n : ℕ) + 8 := by exact_mod_cast hticks
  have hidle : s.uart_rx1.domain.fsm.Idle := ⟨h.r_SM_Main, h.r_Rx_DV⟩
  have hframes := frames_delivers hspaced hidle (τ := -13)
    (fun f hf => by have := h0 f hf; linarith) (seen_serial h0) (n := ticks 8 4 n)
    (fun f hf => by have := hn f hf; linarith)
  rw [← hframes.events_eq, ← hevents]
  simp only [run_uart_rx1]

/-- **Exactly once.** After power-up, with the frames on the line one after the other, `uart_rx`
raises `o_Rx_DV` in one clock for each frame, with its byte and in order, and after the last frame
the tuning is the fold of the command table over the bytes. The fold starts from the tuning of
clock 2, because `o_Rx_DV` has no initial value in either module. -/
theorem commands_exactly_once (s : CommandPath) (h : s.uart_rx1.PowerUp) (frames : List Frame)
    (hspaced : Spaced frames) (h0 : ∀ f ∈ frames, 0 ≤ f.t0) (n : ℕ) (h2 : 2 ≤ n)
    (hn : ∀ f ∈ frames, f.finish ≤ n) :
    events (fun k => (run step s (serial frames) (k + 1)).uart_rx1.received) n
        = frames.map Frame.byte ∧
      (run step s (serial frames) n).tuned
        = (frames.map Frame.byte).foldl command (run step s (serial frames) 2).tuned := by
  rcases Nat.exists_eq_add_of_le h2 with ⟨k, rfl⟩
  constructor
  · apply events_uart_rx1 h hspaced h0
    intro f hf
    have := hn f hf
    linarith
  · rw [run_tuned, events_uart_rx1 h hspaced h0]
    intro f hf
    have := hn f hf
    push_cast at this
    linarith

/-! ### Two frames back to back -/

/-- Everything cleared, but for the synchroniser. -/
def poweredUp : CommandPath where
  uart_rx1 :=
    { UartClk := 0
      domain :=
        { r_Rx_Data_R := true
          r_Rx_Data := true
          fsm :=
            { r_SM_Main := .s_IDLE, r_Clock_Count := 0, r_Bit_Index := 0, r_Rx_Byte := 0
              r_Rx_DV := false, o_Rx_Byte := 0 } }
      o_Rx_DV := false
      r_Rx_DV_last := false }
  o_Rx_DV := false
  o_Rx_Byte := 0
  tuned := { CICGain := 0, phase_inc_carrGen := 0 }
  phase_inc_carrGen1 := 0

/-- `a`, tune to a station, and at once `2`, the gain, both with a slow transmitter. -/
def twoFrames : List Frame :=
  [{ t0 := 5 / 2, P := 736, byte := 97, P_ge := by norm_num, P_le := by norm_num },
   { t0 := 5 / 2 + 7360, P := 736, byte := 50, P_ge := by norm_num, P_le := by norm_num }]

theorem commands_exactly_once_two :
    events (fun k => (run step poweredUp (serial twoFrames) (k + 1)).uart_rx1.received) 14723
        = [97, 50] ∧
      (run step poweredUp (serial twoFrames) 14723).tuned
        = command (command (run step poweredUp (serial twoFrames) 2).tuned 97) 50 := by
  refine commands_exactly_once poweredUp ⟨rfl, rfl, rfl, rfl, rfl, rfl, rfl, rfl⟩ twoFrames
    ?_ ?_ 14723 (by omega) ?_
  · simp [Spaced, twoFrames, Frame.finish]
    norm_num
  · simp [twoFrames]
    norm_num
  · simp [twoFrames, Frame.finish]
    norm_num

end CommandPath

end OneBitSDR
