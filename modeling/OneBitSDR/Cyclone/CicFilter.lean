import OneBitSDR.Clocked.Counter
import OneBitSDR.Signal.TwosComplement

set_option autoImplicit false

/-! # `cic_filter.sv`: the decimating CIC filter

The registers and the clock edge of `cic_filter`, for every choice of the module parameters.
The reset branch assigns `DONTCARE` to the data registers; the values they take are an input of
the step (`dontcare`), so a statement about every run covers every contents a reset can leave.

The integrator loop and the comb loop are then recognised as the circuits `Signal.integrate` and
`Signal.Combs.step` (`Signal/IntegratorComb.lean`) on words of `WIDTHO` bits.
-/

namespace OneBitSDR

open Clocked Signal

/-- The parameters of `cic_filter`, with the conditions under which its declarations make
sense. -/
structure CicParams where
  WIDTH : ℕ
  STAGES : ℕ
  DDELAY : ℕ
  DECIMATION : ℕ
  WIDTHR : ℕ
  stages_pos : 1 ≤ STAGES
  ddelay_pos : 1 ≤ DDELAY
  decimation_two : 2 ≤ DECIMATION
  widthr_le : WIDTHR ≤ WIDTH

namespace CicParams

variable (P : CicParams)

/-- `WIDTH + (STAGES * $clog2(DECIMATION * DDELAY))`. The product of the parameters is that of the
numbers: the source computes it in 32 bits, which is the same as long as it is below `2 ^ 31`. -/
def WIDTHO : ℕ := P.WIDTH + P.STAGES * Nat.clog 2 (P.DECIMATION * P.DDELAY)

/-- `$clog2(DECIMATION)`. -/
def WIDTHC : ℕ := Nat.clog 2 P.DECIMATION

/-- The last stage, `STAGES-1`. -/
def lastStage : Fin P.STAGES := ⟨P.STAGES - 1, by have := P.stages_pos; omega⟩

/-- The end of a delay line, `DDELAY-1`. -/
def lastDelay : Fin P.DDELAY := ⟨P.DDELAY - 1, by have := P.ddelay_pos; omega⟩

theorem widthr_le_widtho : P.WIDTHR ≤ P.WIDTHO := by
  have := P.widthr_le
  unfold WIDTHO
  omega

theorem window_pos : 1 ≤ P.DECIMATION * P.DDELAY :=
  Nat.mul_pos (by have := P.decimation_two; omega) P.ddelay_pos

/-- The shift amount `WIDTHO - WIDTHR - gain`, an unsigned 32-bit difference. -/
def shiftAmount (gain : BitVec 4) : ℕ :=
  if gain.toNat ≤ P.WIDTHO - P.WIDTHR then P.WIDTHO - P.WIDTHR - gain.toNat
  else 2 ^ 32 - (gain.toNat - (P.WIDTHO - P.WIDTHR))

variable {P} in
theorem shiftAmount_of_le {gain : BitVec 4} (hg : gain.toNat ≤ P.WIDTHO - P.WIDTHR) :
    P.shiftAmount gain = P.WIDTHO - P.WIDTHR - gain.toNat := if_pos hg

end CicParams

/-- The registers of `cic_filter`. -/
structure CicFilter (P : CicParams) where
  idata_reg : Fin P.STAGES → BitVec P.WIDTHO
  cdata_reg : Fin P.DDELAY → Fin P.STAGES → BitVec P.WIDTHO
  sub_node : Fin P.STAGES → BitVec P.WIDTHO
  decimation_count : BitVec P.WIDTHC
  comb_enable : Bool
  data_out_valid : Bool
  data_out : BitVec P.WIDTHR

/-- The input ports of `cic_filter` in one cycle. `dontcare` holds the values that the
`DONTCARE` assignments of a reset leave in the data registers. -/
structure CicIn (P : CicParams) where
  clock_sreset : Bool
  gain : BitVec 4
  data_in_valid : Bool
  data_in : BitVec P.WIDTH
  dontcare : CicFilter P

namespace CicFilter

variable {P : CicParams}

/-- The wire `result`, `sub_node[STAGES-1] >>> (WIDTHO - WIDTHR - gain)`. -/
def result (s : CicFilter P) (gain : BitVec 4) : BitVec P.WIDTHO :=
  (s.sub_node P.lastStage).sshiftRight (P.shiftAmount gain)

/-- The wire `end_decimation_count`. For a power of two `DECIMATION[WIDTHC-1:0]` is zero and
the difference wraps around to the largest count. -/
def end_decimation_count (s : CicFilter P) : Bool :=
  decide (s.decimation_count ≥ BitVec.ofNat P.WIDTHC P.DECIMATION - 1)

/-- The integrator loop: `idata_reg[0]` adds the sign-extended input, `idata_reg[i]` adds
`idata_reg[i-1]`. -/
def idataNext (s : CicFilter P) (data_in : BitVec P.WIDTH) (i : Fin P.STAGES) :
    BitVec P.WIDTHO :=
  if i.val = 0 then s.idata_reg i + data_in.signExtend P.WIDTHO
  else s.idata_reg i + s.idata_reg ⟨i.val - 1, by omega⟩

/-- The delay lines of the comb loop. -/
def cdataNext (s : CicFilter P) (j : Fin P.DDELAY) (i : Fin P.STAGES) : BitVec P.WIDTHO :=
  if j.val = 0 then
    if i.val = 0 then s.idata_reg P.lastStage else s.sub_node ⟨i.val - 1, by omega⟩
  else s.cdata_reg ⟨j.val - 1, by omega⟩ i

/-- The differences of the comb loop. -/
def subNodeNext (s : CicFilter P) (i : Fin P.STAGES) : BitVec P.WIDTHO :=
  if i.val = 0 then s.idata_reg P.lastStage - s.cdata_reg P.lastDelay i
  else s.sub_node ⟨i.val - 1, by omega⟩ - s.cdata_reg P.lastDelay i

/-- One rising edge of `clock`: the two `always_ff` blocks of `cic_filter`. -/
def step (s : CicFilter P) (u : CicIn P) : CicFilter P :=
  if u.clock_sreset then
    { idata_reg := u.dontcare.idata_reg
      cdata_reg := u.dontcare.cdata_reg
      sub_node := u.dontcare.sub_node
      decimation_count := 0
      comb_enable := false
      data_out_valid := false
      data_out := u.dontcare.data_out }
  else
    { idata_reg := if u.data_in_valid then s.idataNext u.data_in else s.idata_reg
      cdata_reg := if s.comb_enable then s.cdataNext else s.cdata_reg
      sub_node := if s.comb_enable then s.subNodeNext else s.sub_node
      decimation_count :=
        if u.data_in_valid then
          if s.end_decimation_count then 0 else s.decimation_count + 1
        else s.decimation_count
      comb_enable := if u.data_in_valid then s.end_decimation_count else false
      data_out_valid := s.comb_enable
      data_out := (s.result u.gain).setWidth P.WIDTHR }

/-! ## The loops are the circuits of `Signal/IntegratorComb.lean` -/

/-- The registers of the comb section. -/
def combs (s : CicFilter P) : Combs (BitVec P.WIDTHO) P.STAGES P.DDELAY where
  delay := s.cdata_reg
  node := s.sub_node

theorem idataNext_eq (s : CicFilter P) (data_in : BitVec P.WIDTH) :
    s.idataNext data_in = integrate s.idata_reg (data_in.signExtend P.WIDTHO) := by
  funext i
  unfold idataNext integrate chainIn
  split <;> rfl

theorem cdataNext_eq (s : CicFilter P) :
    s.cdataNext = (s.combs.step P.ddelay_pos (s.idata_reg P.lastStage)).delay := by
  funext j i
  rfl

theorem subNodeNext_eq (s : CicFilter P) :
    s.subNodeNext = (s.combs.step P.ddelay_pos (s.idata_reg P.lastStage)).node := by
  funext i
  unfold subNodeNext Combs.step chainIn
  dsimp only
  split <;> rfl

/-! ## One edge outside reset, register by register -/

section Step

variable {s : CicFilter P} {u : CicIn P}

theorem step_idata_valid (h : u.clock_sreset = false) (hv : u.data_in_valid = true) :
    (s.step u).idata_reg = integrate s.idata_reg (u.data_in.signExtend P.WIDTHO) := by
  simp [step, h, hv, idataNext_eq]

theorem step_idata_stall (h : u.clock_sreset = false) (hv : u.data_in_valid = false) :
    (s.step u).idata_reg = s.idata_reg := by
  simp [step, h, hv]

theorem step_combs_enable (h : u.clock_sreset = false) (hc : s.comb_enable = true) :
    (s.step u).combs = s.combs.step P.ddelay_pos (s.idata_reg P.lastStage) := by
  simp only [step, h, hc, Bool.false_eq_true, if_false, if_true, cdataNext_eq, subNodeNext_eq]
  rfl

theorem step_combs_hold (h : u.clock_sreset = false) (hc : s.comb_enable = false) :
    (s.step u).combs = s.combs := by
  simp [step, h, hc, combs]

theorem step_data_out_valid (h : u.clock_sreset = false) :
    (s.step u).data_out_valid = s.comb_enable := by
  simp [step, h]

theorem step_data_out (h : u.clock_sreset = false) :
    (s.step u).data_out
      = ((s.sub_node P.lastStage).sshiftRight (P.shiftAmount u.gain)).setWidth P.WIDTHR := by
  simp [step, h, result]

theorem step_comb_enable_valid (h : u.clock_sreset = false) (hv : u.data_in_valid = true) :
    (s.step u).comb_enable = s.end_decimation_count := by
  simp [step, h, hv]

theorem step_comb_enable_stall (h : u.clock_sreset = false) (hv : u.data_in_valid = false) :
    (s.step u).comb_enable = false := by
  simp [step, h, hv]

end Step

/-! ## The decimation counter -/

theorem decimation_le_two_pow : P.DECIMATION ≤ 2 ^ P.WIDTHC :=
  Nat.le_pow_clog (by omega) P.DECIMATION

theorem toNat_one : (1 : BitVec P.WIDTHC).toNat = 1 := by
  have hR := P.decimation_two
  have hle : P.DECIMATION ≤ 2 ^ P.WIDTHC := decimation_le_two_pow
  rw [show (1 : BitVec P.WIDTHC) = BitVec.ofNat _ 1 from rfl, BitVec.toNat_ofNat]
  exact Nat.mod_eq_of_lt (by omega)

/-- The terminal count is `DECIMATION - 1`, for powers of two as well. -/
theorem toNat_terminalCount :
    (BitVec.ofNat P.WIDTHC P.DECIMATION - 1).toNat = P.DECIMATION - 1 :=
  toNat_terminal P.decimation_two

theorem end_decimation_count_iff (s : CicFilter P) :
    s.end_decimation_count = true ↔ P.DECIMATION - 1 ≤ s.decimation_count.toNat := by
  rw [end_decimation_count, decide_eq_true_eq, ge_iff_le, BitVec.le_def, toNat_terminalCount]

/-- The count of an accepted input, as long as it has not passed the terminal count. -/
theorem step_decimation_count {s : CicFilter P} {u : CicIn P} {a : ℕ}
    (h : u.clock_sreset = false) (hv : u.data_in_valid = true)
    (hs : s.decimation_count.toNat = a % P.DECIMATION) :
    (s.step u).decimation_count.toNat = (a + 1) % P.DECIMATION
      ∧ (s.step u).comb_enable = decide (P.DECIMATION ∣ a + 1) := by
  have hR := P.decimation_two
  have hlt : a % P.DECIMATION < P.DECIMATION := Nat.mod_lt _ (by omega)
  have hwidth : P.DECIMATION ≤ 2 ^ P.WIDTHC := decimation_le_two_pow
  have hend : s.end_decimation_count = decide (a % P.DECIMATION + 1 = P.DECIMATION) := by
    rw [Bool.eq_iff_iff, end_decimation_count_iff, hs, decide_eq_true_eq]
    omega
  rw [step_comb_enable_valid h hv, hend, decide_eq_decide.mpr (dvd_succ_iff hR), succ_mod hR]
  refine ⟨?_, rfl⟩
  -- the counter returns to zero exactly when the next count would be `DECIMATION`
  by_cases hlast : a % P.DECIMATION + 1 = P.DECIMATION
  · have hzero : (s.step u).decimation_count = 0 := by simp [step, h, hv, hend, hlast]
    rw [hzero, if_pos hlast]
    rfl
  · have hadd : (s.step u).decimation_count = s.decimation_count + 1 := by
      simp [step, h, hv, hend, hlast]
    rw [hadd, BitVec.toNat_add, toNat_one, hs, if_neg hlast, Nat.mod_eq_of_lt (by omega)]

end CicFilter

end OneBitSDR
