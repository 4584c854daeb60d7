import OneBitSDR.Cyclone.Carrier
import OneBitSDR.Cyclone.Sinusoid
import OneBitSDR.Software.Loop

set_option autoImplicit false

/-! # From the console to the mixer

The program shows the frequency and the gain first, and then writes an increment and the gain to the
hardware of `sdr.sv`. So for a while after a key the console is ahead of the oscillator, until the
program waits for the next key. The increment is rounded down, which makes the oscillator slower
than what was asked for, but by less than a 40th of a Hz, and a write does not restart it.
-/

namespace OneBitSDR

open Clocked Signal Real

/-! ## The increment that is written -/

namespace Sdr

end Sdr

namespace SdrFpga

open Sdr

variable {lpm_mult : LpmMult 16} {altsqrt : AltSqrt 16}

/-! ## The oscillator after a reset -/

section Release

variable {s : SdrFpga lpm_mult altsqrt} (hs : InReset s) {u : ℕ → Ports}
  (hu : ∀ n, (u n).system_clock_sreset = false)

include hs hu

theorem run_phase (n : ℕ) :
    (run step s u (n + 1)).am_receiver.nco.phase_accumulator
      = ∑ k ∈ Finset.range n, (u (k + 1)).phase_increment := by
  induction n with
  | zero =>
      show (if s.am_receiver.clock_sreset_reg then (0 : BitVec 32) else _) = 0
      rw [if_pos hs.clock_sreset_reg]
  | succ n ih =>
      have hreleased : (run step s u (n + 1)).am_receiver.clock_sreset_reg = false := hu n
      show (if (run step s u (n + 1)).am_receiver.clock_sreset_reg then 0
        else (run step s u (n + 1)).am_receiver.nco.phase_accumulator
          + (u (n + 1)).phase_increment) = _
      rw [hreleased, ih, Finset.sum_range_succ]
      rfl

end Release

end SdrFpga

/-! ## The board -/

/-- The hardware of `sdr` and the program on its processor. -/
structure SdrBoard (lpm_mult : LpmMult 16) (altsqrt : AltSqrt 16) where
  program : Sdr.Loop
  fpga : SdrFpga lpm_mult altsqrt

namespace SdrBoard

open Sdr SdrFpga

variable {lpm_mult : LpmMult 16} {altsqrt : AltSqrt 16}

/-- What an edge brings: the pin, the reset, how far the processor gets and the key it reads, and
the values that the design leaves open. -/
structure Ports where
  lvds_in : Bool
  system_clock_sreset : Bool
  executes : Bool
  key : BitVec 32
  undefined : BitVec 32
  i_dontcare : CicFilter sdrReceiver.cic
  q_dontcare : CicFilter sdrReceiver.cic
  sum_dontcare : BitVec 33

/-- The ports of the program. -/
def programPorts (i : Ports) : Sdr.Loop.Ports where
  reset := i.system_clock_sreset
  executes := i.executes
  key := i.key
  undefined := i.undefined

/-- The ports of the hardware, with the two exported registers. -/
def fpgaPorts (s : SdrBoard lpm_mult altsqrt) (i : Ports) : SdrFpga.Ports where
  lvds_in := i.lvds_in
  system_clock_sreset := i.system_clock_sreset
  cic_gain := s.program.CIC_GAIN
  phase_increment := s.program.PHASE_INCREMENT
  i_dontcare := i.i_dontcare
  q_dontcare := i.q_dontcare
  sum_dontcare := i.sum_dontcare

/-- One rising edge of `system_clock`. -/
def step (s : SdrBoard lpm_mult altsqrt) (i : Ports) : SdrBoard lpm_mult altsqrt where
  program := s.program.step (programPorts i)
  fpga := s.fpga.step (s.fpgaPorts i)

/-- The keys read by the first `n` edges. -/
def typed (s : SdrBoard lpm_mult altsqrt) (u : ℕ → Ports) (n : ℕ) : List (BitVec 32) :=
  s.program.typed (fun k => programPorts (u k)) n

/-- The keys that had been read when the statement was executed last, in the first `n` edges. -/
def lastExecuted (s : SdrBoard lpm_mult altsqrt) (u : ℕ → Ports) (st : Statement) (n : ℕ) :
    Option (List (BitVec 32)) :=
  s.program.lastExecuted (fun k => programPorts (u k)) st n

section Release

variable (s : SdrBoard lpm_mult altsqrt) {i : Ports} (hi : i.system_clock_sreset = true)
  {u : ℕ → Ports} (hu : ∀ n, (u n).system_clock_sreset = false)

include hi

include hu

end Release

section Registers

variable {p : Sdr.Loop} {keys k : List (BitVec 32)} (h : p.Follows keys)

include h

end Registers

end SdrBoard

end OneBitSDR
