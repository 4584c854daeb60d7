import OneBitSDR.Clocked.Since
import OneBitSDR.Lattice.Receiver

set_option autoImplicit false

/-! # From the serial line to the frequency of the oscillator

A command selects a station, moves the tuning by a step, sets the gain or does nothing. After any
commands the increment of the oscillator is that of the last station plus the steps since, modulo
`2 ^ 64`. The oscillator itself is never restarted: it goes on from the phase it has with a sinusoid
of the new frequency.
-/

namespace OneBitSDR

open Clocked Signal Real

/-! ## The command table -/

/-- The station a command selects. -/
def station (o_Rx_Byte : BitVec 8) : Option (BitVec 64) :=
  if o_Rx_Byte.toNat ∈ [97, 98, 102, 103] then some (phaseCommand 0 o_Rx_Byte) else none

/-- The step of a command, zero for a byte that is none. -/
def detuning (o_Rx_Byte : BitVec 8) : BitVec 64 := phaseCommand 0 o_Rx_Byte

/-- The gain a command selects. -/
def gainOf (o_Rx_Byte : BitVec 8) : Option (BitVec 8) :=
  if o_Rx_Byte.toNat ∈ [48, 49, 50, 51] then some (gainCommand 0 o_Rx_Byte) else none

theorem phaseCommand_eq (phase_inc_carrGen : BitVec 64) (o_Rx_Byte : BitVec 8) :
    phaseCommand phase_inc_carrGen o_Rx_Byte
      = setOrAdd station detuning phase_inc_carrGen o_Rx_Byte := by
  unfold setOrAdd station detuning phaseCommand
  split
  case h_11 =>
    rw [if_neg (by grind)]
    exact (add_zero _).symm
  all_goals simp [*, BitVec.sub_eq_add_neg]

theorem gainCommand_eq (CICGain o_Rx_Byte : BitVec 8) :
    gainCommand CICGain o_Rx_Byte = setOrAdd gainOf (fun _ => 0) CICGain o_Rx_Byte := by
  unfold setOrAdd gainOf gainCommand
  split
  case h_5 =>
    rw [if_neg (by grind)]
    exact (add_zero _).symm
  all_goals simp [*]

/-- The increment after the commands. -/
def tunedTo (start : BitVec 64) (bytes : List (BitVec 8)) : BitVec 64 :=
  lastSet station start bytes + movedSince station detuning bytes

theorem foldl_command (t : Tuned) (bytes : List (BitVec 8)) :
    bytes.foldl command t
      = { CICGain := lastSet gainOf t.CICGain bytes
          phase_inc_carrGen := tunedTo t.phase_inc_carrGen bytes } := by
  have hsplit : bytes.foldl command t
      = { CICGain := bytes.foldl gainCommand t.CICGain
          phase_inc_carrGen := bytes.foldl phaseCommand t.phase_inc_carrGen } := by
    induction bytes generalizing t with
    | nil => rfl
    | cons b bytes ih => exact ih (command t b)
  have hnone : movedSince gainOf (fun _ => (0 : BitVec 8)) bytes = 0 := by simp [movedSince]
  have hgain : gainCommand = setOrAdd gainOf (fun _ => 0) :=
    funext fun x => funext fun b => gainCommand_eq x b
  have hphase : phaseCommand = setOrAdd station detuning :=
    funext fun x => funext fun b => phaseCommand_eq x b
  rw [hsplit, hgain, hphase, foldl_setOrAdd, foldl_setOrAdd, hnone, add_zero, tunedTo]

/-! ## The commands of the line -/

namespace Top

variable {mult : Multiplier}

theorem run_commands (s : Top mult) (u : ℕ → Ports) (n : ℕ) :
    (run step s u n).commands
      = run CommandPath.step s.commands (fun k => (u k).i_Rx_Serial) n :=
  run_proj Top.commands (fun _ i => i.i_Rx_Serial) (fun _ _ => rfl) s u n

section Line

variable {s : Top mult} (h : s.commands.uart_rx1.PowerUp) {frames : List Frame}
  (hspaced : Spaced frames) (h0 : ∀ f ∈ frames, 0 ≤ f.t0) {u : ℕ → Ports}
  (hline : ∀ k, (u k).i_Rx_Serial = CommandPath.serial frames k) {n : ℕ} (h2 : 2 ≤ n)
  (hn : ∀ f ∈ frames, f.finish ≤ n)

include h hspaced h0 hline h2 hn

/-- After the last frame the tuning stays. -/
theorem run_tuned_of_le {k : ℕ} (hk : n ≤ k) :
    (run step s u k).commands.tuned
      = { CICGain := lastSet gainOf (run step s u 2).commands.tuned.CICGain
            (frames.map Frame.byte)
          phase_inc_carrGen := tunedTo (run step s u 2).commands.tuned.phase_inc_carrGen
            (frames.map Frame.byte) } := by
  have hserial : (fun k => (u k).i_Rx_Serial) = CommandPath.serial frames := funext hline
  obtain ⟨m, rfl⟩ := Nat.exists_eq_add_of_le (h2.trans hk)
  have hfinish : ∀ f ∈ frames, f.finish ≤ (m : ℚ) + 20 := by
    intro f hf
    have hlast := hn f hf
    have hle : (n : ℚ) ≤ (2 + m : ℕ) := by exact_mod_cast hk
    push_cast at hle
    linarith
  rw [run_commands, run_commands, hserial, CommandPath.run_tuned,
    CommandPath.events_uart_rx1 h hspaced h0 hfinish, foldl_command]

/-- One clock later the increment has reached the oscillator. -/
theorem run_phase_inc_of_lt {k : ℕ} (hk : n < k) :
    (run step s u k).commands.phase_inc_carrGen1
      = tunedTo (run step s u 2).commands.tuned.phase_inc_carrGen (frames.map Frame.byte) := by
  obtain ⟨j, rfl⟩ := Nat.exists_eq_add_of_le' (show 1 ≤ k by omega)
  have htuned := run_tuned_of_le h hspaced h0 hline h2 hn (k := j) (by omega)
  show (run step s u j).commands.tuned.phase_inc_carrGen = _
  rw [htuned]

/-- From then on the oscillator runs with a constant increment. -/
theorem run_oscillator_of_lt (m : ℕ) :
    (run step s u (n + 1 + m)).oscillator
      = run LocalOscillator.step (run step s u (n + 1)).oscillator
          (fun _ => tunedTo (run step s u 2).commands.tuned.phase_inc_carrGen
            (frames.map Frame.byte)) m := by
  rw [run_add, run_oscillator]
  apply run_congr
  intro k _
  rw [← run_add]
  exact run_phase_inc_of_lt h hspaced h0 hline h2 hn (by omega)

end Line

/-- **Tuning.** After power-up, with the frames on the serial line one after the other, and from
the clock after the last one on: the gain is the last one selected, and the outputs of the
oscillator go on from the phase it has with the increment of the last station plus the steps since,
as a cosine and a sine with the amplitude 2048, up to the rounding and one step of the angle. The
sine is so if the angle is not that of a peak with the next one in the other half of the turn, to
which no increment up to 63 256ths of a turn leads. What was in the registers on clock 2 plays the
part of a gain and a station. -/
theorem tuned_oscillator (s : Top mult) (h : s.commands.uart_rx1.PowerUp) (frames : List Frame)
    (hspaced : Spaced frames) (h0 : ∀ f ∈ frames, 0 ≤ f.t0) (u : ℕ → Ports)
    (hline : ∀ k, (u k).i_Rx_Serial = CommandPath.serial frames k) {n : ℕ} (h2 : 2 ≤ n)
    (hn : ∀ f ∈ frames, f.finish ≤ n) (m : ℕ) :
    let start := (run step s u 2).commands.tuned
    let bytes := frames.map Frame.byte
    let inc := tunedTo start.phase_inc_carrGen bytes
    let t := fun k => (run step s u (n + 1 + k)).oscillator
    let phase := angle (t 0).ncoGen.phase_accum + m * angle inc
    let crossed := SinCos.PeakCrossed (upper 8 (t m).ncoGen.phase_accum)
      (upper 8 (t (m + 1)).ncoGen.phase_accum)
    (run step s u (n + m)).commands.tuned.CICGain = lastSet gainOf start.CICGain bytes ∧
      |((t (m + 3)).SinCos1.Cosine.toInt : ℝ) - 2048 * cos phase|
        < 1 / 2 + 2048 * (2 * π / 256) ∧
      (¬ crossed → |((t (m + 3)).SinCos1.Sine.toInt : ℝ) - 2048 * sin phase|
        < 1 / 2 + 2048 * (2 * π / 256)) ∧
      (inc.toNat ≤ 63 * 2 ^ 56 → ¬ crossed) := by
  intro start bytes inc t phase crossed
  have ht : ∀ k, t k = run LocalOscillator.step (run step s u (n + 1)).oscillator (fun _ => inc) k :=
    run_oscillator_of_lt h hspaced h0 hline h2 hn
  have hphase := LocalOscillator.coe_angle_phase_accum (run step s u (n + 1)).oscillator
    (fun _ => inc) m
  rw [Finset.sum_const, Finset.card_range, nsmul_eq_mul] at hphase
  have hcrossed : crossed ↔ SinCos.PeakCrossed
      (LocalOscillator.theta (run step s u (n + 1)).oscillator (fun _ => inc) m)
      (LocalOscillator.theta (run step s u (n + 1)).oscillator (fun _ => inc) (m + 1)) := by
    rw [LocalOscillator.theta, LocalOscillator.theta, ← ht, ← ht]
  rw [hcrossed, ht]
  refine ⟨?_, ?_, ?_, ?_⟩
  · rw [run_tuned_of_le h hspaced h0 hline h2 hn (Nat.le_add_right n m)]
  · exact LocalOscillator.run_Cosine_phase _ _ m hphase
  · exact LocalOscillator.run_Sine_phase _ _ m hphase
  · exact LocalOscillator.not_peakCrossed (run step s u (n + 1)).oscillator (fun _ => inc) m

/-- The line of two frames, with a silent antenna. -/
def twoCommands (n : ℕ) : Ports where
  i_Rx_Serial := CommandPath.serial CommandPath.twoFrames n
  RFIn := false
  iAfter := true
  qAfter := true

theorem tunedTo_two (start : BitVec 64) : tunedTo start [97, 50] = 0x2c6a19e88f1cfe2 := rfl

theorem lastSet_two (start : BitVec 8) : lastSet gainOf start [97, 50] = 2 := rfl

/-- The commands `a` and `2`, a thousand clocks after the end of the second. -/
theorem tuned_oscillator_two :
    (run step poweredUp twoCommands (14723 + 1000)).commands.tuned.CICGain = 2 ∧
      |((run step poweredUp twoCommands (14723 + 1 + (1000 + 3))).oscillator.SinCos1.Sine.toInt : ℝ)
        - 2048 * sin (angle
            (run step poweredUp twoCommands (14723 + 1 + 0)).oscillator.ncoGen.phase_accum
          + (1000 : ℕ) * angle (0x2c6a19e88f1cfe2 : BitVec 64))|
        < 1 / 2 + 2048 * (2 * π / 256) := by
  have hspaced : Spaced CommandPath.twoFrames := by
    simp [Spaced, CommandPath.twoFrames, Frame.finish]
    norm_num
  have h0 : ∀ f ∈ CommandPath.twoFrames, 0 ≤ f.t0 := by
    simp [CommandPath.twoFrames]
    norm_num
  have hn : ∀ f ∈ CommandPath.twoFrames, f.finish ≤ (14723 : ℕ) := by
    simp [CommandPath.twoFrames, Frame.finish]
    norm_num
  have h := tuned_oscillator poweredUp ⟨rfl, rfl, rfl, rfl, rfl, rfl, rfl, rfl⟩
    CommandPath.twoFrames hspaced h0 twoCommands (fun _ => rfl) (by omega) hn 1000
  have hbytes : CommandPath.twoFrames.map Frame.byte = [97, 50] := rfl
  dsimp only at h
  rw [hbytes, tunedTo_two, lastSet_two] at h
  obtain ⟨hgain, -, hsine, hinc⟩ := h
  exact ⟨hgain, hsine (hinc (by decide))⟩

end Top

end OneBitSDR
