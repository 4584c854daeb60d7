import OneBitSDR.Clocked.Counter

set_option autoImplicit false

/-! # `PWM.v`: the audio output of the Lattice design

A free-running 10-bit counter is compared with the low 10 bits of a register that is loaded at
count 0 with `DataIn + 512`, the offset for a signed `DataIn`. A period is high for its first
`D + 1` clocks, where `D` is the compared value.
-/

namespace OneBitSDR

open Clocked

/-- The registers of `PWM`. -/
structure PWM where
  counter : BitVec 10
  DataInReg : BitVec 12
  PWMOut : Bool

namespace PWM

/-- One rising edge of `clk`. -/
def step (s : PWM) (DataIn : BitVec 12) : PWM where
  counter := s.counter + 1
  DataInReg := if s.counter = 0 then DataIn + 512 else s.DataInReg
  PWMOut := if s.DataInReg.extractLsb' 0 10 < s.counter then false else true

/-- The value the counter is compared with. -/
def compared (DataIn : BitVec 12) : ℕ := (DataIn.toNat + 512) % 1024

theorem toNat_compared (DataIn : BitVec 12) :
    ((DataIn + 512).extractLsb' 0 10).toNat = compared DataIn := by
  have hlt := DataIn.isLt
  rw [BitVec.extractLsb'_toNat, BitVec.toNat_add, Nat.shiftRight_zero]
  show (DataIn.toNat + 512) % 2 ^ 12 % 2 ^ 10 = (DataIn.toNat + 512) % 1024
  omega

/-! ## A period -/

theorem run_counter (s : PWM) (u : ℕ → BitVec 12) (n : ℕ) :
    (run step s u n).counter = s.counter + BitVec.ofNat 10 n :=
  run_freeRunning PWM.counter (fun _ _ => rfl) s u n

section Period

variable {s : PWM} (h0 : s.counter = 0) (u : ℕ → BitVec 12)

include h0

theorem toNat_counter {k : ℕ} (hk : k < 1024) : (run step s u k).counter.toNat = k :=
  toNat_freeRunning PWM.counter h0 hk (fun _ _ => rfl)

/-- The register is loaded by the first edge of a period and by no other. -/
theorem DataInReg_period {k : ℕ} (hk : k < 1024) :
    (run step s u (k + 1)).DataInReg = u 0 + 512 := by
  induction k with
  | zero =>
      rw [run_succ, run_zero]
      show (if s.counter = 0 then u 0 + 512 else s.DataInReg) = u 0 + 512
      rw [if_pos h0]
  | succ k ih =>
      have hcount := toNat_counter h0 u (k := k + 1) hk
      have hne : ¬ (run step s u (k + 1)).counter = 0 := by
        intro h
        rw [h] at hcount
        cases hcount
      rw [run_succ]
      show (if (run step s u (k + 1)).counter = 0 then _ else _) = u 0 + 512
      rw [if_neg hne]
      exact ih (by omega)

/-- Edge `k` of a period sets `PWMOut` exactly if `k` is at most the compared value. -/
theorem PWMOut_period {k : ℕ} (hk : k < 1024) :
    (run step s u (k + 1)).PWMOut = true ↔ k ≤ compared (u 0) := by
  have hcount := toNat_counter h0 u hk
  rw [run_succ]
  show (if _ < (run step s u k).counter then false else true) = true ↔ _
  cases k with
  | zero =>
      -- the stale register of the first edge does not matter at count 0
      have hnot : ¬ (run step s u 0).DataInReg.extractLsb' 0 10 < (run step s u 0).counter := by
        rw [BitVec.lt_def, hcount]
        omega
      rw [if_neg hnot]
      simp
  | succ k =>
      have hlt : (run step s u (k + 1)).DataInReg.extractLsb' 0 10 < (run step s u (k + 1)).counter
          ↔ compared (u 0) < k + 1 := by
        rw [DataInReg_period h0 u (by omega), BitVec.lt_def, toNat_compared, hcount]
      by_cases hle : k + 1 ≤ compared (u 0)
      · rw [if_neg (fun h => absurd (hlt.mp h) (by omega))]
        simp [hle]
      · rw [if_pos (hlt.mpr (by omega))]
        simp [hle]

end Period

/-- The number of edges of the period from `s` on that set `PWMOut`. -/
def highEdges (s : PWM) (u : ℕ → BitVec 12) : ℕ :=
  Nat.count (fun k => (run step s u (k + 1)).PWMOut = true) 1024

/-- A period is high for one edge more than the compared value. -/
theorem highEdges_eq {s : PWM} (h0 : s.counter = 0) (u : ℕ → BitVec 12) :
    highEdges s u = compared (u 0) + 1 :=
  count_of_iff_le (Nat.mod_lt _ (by decide)) (fun _ hk => PWMOut_period h0 u hk)

/-- **The duty law.** From any state, a period that begins with edge `t` sets `PWMOut` on its first
`D + 1` edges and on no other, where `D` is the low part of `DataIn + 512` on edge `t`. -/
theorem pwm_duty (s : PWM) (u : ℕ → BitVec 12) (t : ℕ) (h0 : (run step s u t).counter = 0) :
    (∀ k < 1024, (run step s u (t + k + 1)).PWMOut = true ↔ k < compared (u t) + 1) ∧
      Nat.count (fun k => (run step s u (t + k + 1)).PWMOut = true) 1024 = compared (u t) + 1 := by
  have hrun : ∀ k, run step s u (t + k + 1) = run step (run step s u t) (fun j => u (t + j)) (k + 1) :=
    fun k => run_add step s u t (k + 1)
  simp only [hrun]
  refine ⟨fun k hk => ?_, highEdges_eq h0 (fun j => u (t + j))⟩
  rw [PWMOut_period h0 _ hk, Nat.lt_succ_iff]
  rfl

/-- A counter that starts at 1020 begins a period with edge 4; the input changes on every edge. -/
theorem pwm_duty_fourth :
    (∀ k < 1024, (run step ⟨1020, 77, false⟩ (BitVec.ofNat 12) (4 + k + 1)).PWMOut = true
        ↔ k < compared 4 + 1) ∧
      Nat.count (fun k => (run step ⟨1020, 77, false⟩ (BitVec.ofNat 12) (4 + k + 1)).PWMOut = true)
        1024 = compared 4 + 1 :=
  pwm_duty ⟨1020, 77, false⟩ (BitVec.ofNat 12) 4 (by decide)

end PWM

end OneBitSDR
