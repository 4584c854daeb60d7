import OneBitSDR.Signal.Phase

set_option autoImplicit false

/-! # `NCO.v`: the local oscillator of the Lattice receiver

A 64-bit phase accumulator whose upper two bits give two square waves a quarter of a turn apart.
It has no reset and no initial value, so its runs start with any phase.
-/

namespace OneBitSDR

open Clocked Signal

/-- The register of `nco_sig`. -/
structure NcoSig where
  phase_accum : BitVec 64

namespace NcoSig

/-- The output port `sin_out`. -/
def sin_out (s : NcoSig) : Bool := if s.phase_accum.getLsbD 63 then false else true

/-- The output port `cos_out`. -/
def cos_out (s : NcoSig) : Bool :=
  if s.phase_accum.getLsbD 63 ^^ s.phase_accum.getLsbD 62 then false else true

/-- One rising edge of `clk`. -/
def step (s : NcoSig) (phase_inc_carr : BitVec 64) : NcoSig where
  phase_accum := s.phase_accum + phase_inc_carr

/-- The sine is the complement of the top bit. -/
theorem sin_out_eq (s : NcoSig) : s.sin_out = !s.phase_accum.msb := by
  rw [sin_out, BitVec.msb_eq_getLsbD_last]
  cases s.phase_accum.getLsbD 63 <;> rfl

/-- The phase is the start phase plus the sum of the increments, modulo `2^64`. -/
theorem run_phase_accum (s : NcoSig) (u : ℕ → BitVec 64) (n : ℕ) :
    (run step s u n).phase_accum = s.phase_accum + ∑ k ∈ Finset.range n, u k := by
  have h : (run step s u n).phase_accum = run (· + ·) s.phase_accum u n :=
    run_proj NcoSig.phase_accum (fun _ v => v) (fun _ _ => rfl) s u n
  rw [h, run_accumulate]

end NcoSig

end OneBitSDR
