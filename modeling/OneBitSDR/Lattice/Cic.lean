import OneBitSDR.Signal.TwosComplement

set_option autoImplicit false

/-! # `CIC.v`: the CIC filter of the Lattice receiver

The registers and the clock edge of `CIC`. The module has no reset: every register starts with
arbitrary contents. Its five integrators and five combs, written out one by one in the source,
are the circuits of `Signal/IntegratorComb.lean` with five stages and unit delay.
-/

namespace OneBitSDR

open Clocked Signal

/-- The registers of `CIC` for a given `width`. -/
structure Cic (width : ℕ) where
  d_tmp : BitVec width
  d_d_tmp : BitVec width
  d1 : BitVec width
  d2 : BitVec width
  d3 : BitVec width
  d4 : BitVec width
  d5 : BitVec width
  d6 : BitVec width
  d_d6 : BitVec width
  d7 : BitVec width
  d_d7 : BitVec width
  d8 : BitVec width
  d_d8 : BitVec width
  d9 : BitVec width
  d_d9 : BitVec width
  d10 : BitVec width
  d_scaled : BitVec width
  count : BitVec 16
  v_comb : Bool
  d_clk_tmp : Bool
  d_out : BitVec 12
  d_clk : Bool

/-- The input ports of `CIC` in one cycle. -/
structure CicPort where
  Gain : BitVec 8
  d_in : BitVec 12

namespace Cic

variable {width : ℕ}

/-- The shift amount `width - 12 - Gain`, an unsigned 32-bit difference. -/
def shiftAmount (width : ℕ) (Gain : BitVec 8) : ℕ :=
  if 12 + Gain.toNat ≤ width then width - 12 - Gain.toNat
  else 2 ^ 32 - (12 + Gain.toNat - width)

theorem shiftAmount_of_le {Gain : BitVec 8} (hg : 12 + Gain.toNat ≤ width) :
    shiftAmount width Gain = width - 12 - Gain.toNat := if_pos hg

/-- `count == decimation_ratio - 1`. -/
def atEnd (decimation_ratio : ℕ) (s : Cic width) : Bool :=
  decide (s.count.toNat + 1 = decimation_ratio)

/-- `count == decimation_ratio >> 1`. -/
def atHalf (decimation_ratio : ℕ) (s : Cic width) : Bool :=
  decide (s.count.toNat = decimation_ratio / 2)

/-- One rising edge of `clk`: the two `always` blocks of `CIC`. -/
def step (decimation_ratio : ℕ) (s : Cic width) (u : CicPort) : Cic width where
  -- integrator section
  d1 := u.d_in.signExtend width + s.d1
  d2 := s.d1 + s.d2
  d3 := s.d2 + s.d3
  d4 := s.d3 + s.d4
  d5 := s.d4 + s.d5
  -- decimation
  count := if atEnd decimation_ratio s then 0 else s.count + 1
  d_tmp := if atEnd decimation_ratio s then s.d5 else s.d_tmp
  d_clk_tmp :=
    if atEnd decimation_ratio s then true
    else if atHalf decimation_ratio s then false
    else s.d_clk_tmp
  v_comb := atEnd decimation_ratio s
  -- comb section
  d_clk := s.d_clk_tmp
  d_d_tmp := if s.v_comb then s.d_tmp else s.d_d_tmp
  d6 := if s.v_comb then s.d_tmp - s.d_d_tmp else s.d6
  d_d6 := if s.v_comb then s.d6 else s.d_d6
  d7 := if s.v_comb then s.d6 - s.d_d6 else s.d7
  d_d7 := if s.v_comb then s.d7 else s.d_d7
  d8 := if s.v_comb then s.d7 - s.d_d7 else s.d8
  d_d8 := if s.v_comb then s.d8 else s.d_d8
  d9 := if s.v_comb then s.d8 - s.d_d8 else s.d9
  d_d9 := if s.v_comb then s.d9 else s.d_d9
  d10 := if s.v_comb then s.d9 - s.d_d9 else s.d10
  d_scaled := if s.v_comb then s.d10 else s.d_scaled
  d_out :=
    if s.v_comb then (s.d10.sshiftRight (shiftAmount width u.Gain)).setWidth 12 else s.d_out

/-! ## The sections are the circuits of `Signal/IntegratorComb.lean` -/

/-- The integrator registers as a chain of five stages. -/
def idata (s : Cic width) : Fin 5 → BitVec width := ![s.d1, s.d2, s.d3, s.d4, s.d5]

/-- The comb registers as a chain of five stages with one delay each. -/
def combs (s : Cic width) : Combs (BitVec width) 5 1 where
  delay _ := ![s.d_d_tmp, s.d_d6, s.d_d7, s.d_d8, s.d_d9]
  node := ![s.d6, s.d7, s.d8, s.d9, s.d10]

variable {R : ℕ} {s : Cic width} {u : CicPort}

theorem step_idata : (step R s u).idata = integrate s.idata (u.d_in.signExtend width) := by
  funext i
  fin_cases i
  · exact BitVec.add_comm _ _
  · exact BitVec.add_comm _ _
  · exact BitVec.add_comm _ _
  · exact BitVec.add_comm _ _
  · exact BitVec.add_comm _ _

theorem step_combs_enable (hv : s.v_comb = true) :
    (step R s u).combs = s.combs.step Nat.one_pos s.d_tmp := by
  simp only [combs, step, hv, if_true, Combs.step, Combs.mk.injEq]
  constructor
  · funext j i
    fin_cases j
    fin_cases i <;> rfl
  · funext i
    fin_cases i <;> rfl

theorem step_combs_hold (hv : s.v_comb = false) : (step R s u).combs = s.combs := by
  simp [combs, step, hv]

theorem step_d_out (hv : s.v_comb = true) :
    (step R s u).d_out = (s.d10.sshiftRight (shiftAmount width u.Gain)).setWidth 12 := by
  simp [step, hv]

end Cic

end OneBitSDR
