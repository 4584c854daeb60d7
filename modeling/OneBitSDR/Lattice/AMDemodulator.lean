import OneBitSDR.Cyclone.AmDemod
import OneBitSDR.Signal.SquareRoot

set_option autoImplicit false

/-! # `AMDemod.v`: the AM demodulator of the Lattice design

`I` and `Q` are squared by two multipliers and the square root of the sum is taken in one clock,
by a function with a loop of 16 steps. The loop is the non-restoring square root, in which the
remainder is kept in 18 bits; the steps below are shown to be those of the root over the
integers, so nothing is ever lost in the 18 bits.
-/

namespace OneBitSDR

open Clocked Signal

/-- The multiplier block, 12 by 12 bits. -/
abbrev Multiplier := Component (BitVec 12 × BitVec 12) (BitVec (12 * 2))

namespace AMDemodulator

/-! ## The square root -/

/-- The variables of the function `sqrt`. -/
structure SqrtVars where
  a : BitVec 32
  q : BitVec 16
  r : BitVec 18

/-- One turn of the loop. -/
def sqrtStep (v : SqrtVars) : SqrtVars :=
  -- `{q, r[17], 1'b1}` is `4 q + 1`, or `4 q + 3` for a negative remainder
  let right : BitVec 18 := v.q ++ BitVec.ofBool (v.r.getLsbD 17) ++ 1#1
  let left : BitVec 18 := v.r.extractLsb' 0 16 ++ v.a.extractLsb' 30 2
  let a : BitVec 32 := v.a.extractLsb' 0 30 ++ 0#2
  let r := if v.r.getLsbD 17 then left + right else left - right
  let q : BitVec 16 := v.q.extractLsb' 0 15 ++ BitVec.ofBool (!r.getLsbD 17)
  { a, q, r }

/-- The variables after `i` turns. -/
def sqrtLoop (num : BitVec 32) : ℕ → SqrtVars
  | 0 => { a := num, q := 0, r := 0 }
  | i + 1 => sqrtStep (sqrtLoop num i)

def sqrt (num : BitVec 32) : BitVec 16 := (sqrtLoop num 16).q

/-! ### The loop is the square root over the integers -/

theorem getLsbD_msb (r : BitVec 18) : r.getLsbD 17 = true ↔ r.toInt < 0 := by
  have hlt := r.isLt
  rw [← BitVec.msb_eq_getLsbD_last r, BitVec.msb_eq_toInt]
  exact decide_eq_true_iff

theorem toNat_right (q : BitVec 16) (b : Bool) :
    (q ++ BitVec.ofBool b ++ 1#1 : BitVec 18).toNat = 4 * q.toNat + 2 * b.toNat + 1 := by
  have hone : (1#1).toNat = 1 := rfl
  rw [toNat_append_add, toNat_append_add, BitVec.toNat_ofBool, hone]
  ring

theorem toNat_left (r : BitVec 18) (a : BitVec 32) :
    (r.extractLsb' 0 16 ++ a.extractLsb' 30 2 : BitVec 18).toNat
      = 4 * (r.toNat % 2 ^ 16) + a.toNat / 2 ^ 30 := by
  have ha := a.isLt
  rw [toNat_append_add]
  simp only [BitVec.extractLsb'_toNat, Nat.shiftRight_eq_div_pow]
  omega

/-- The remainder of the loop is the integer one, as long as that fits in 18 bits. -/
theorem toInt_remainder (v : SqrtVars) (s : SquareRoot.State) (hq : (v.q.toNat : ℤ) = s.q)
    (hr : v.r.toInt = s.r)
    (hlow : -2 ^ 17 ≤ SquareRoot.remainder s (v.a.toNat / 2 ^ 30 : ℕ))
    (hhigh : SquareRoot.remainder s (v.a.toNat / 2 ^ 30 : ℕ) < 2 ^ 17) :
    (sqrtStep v).r.toInt = SquareRoot.remainder s (v.a.toNat / 2 ^ 30 : ℕ) := by
  have hleft := toNat_left v.r v.a
  have hright := toNat_right v.q (v.r.getLsbD 17)
  have hrlt := v.r.isLt
  have hrnat : v.r.toInt = if 2 * v.r.toNat < 2 ^ 18 then (v.r.toNat : ℤ) else v.r.toNat - 2 ^ 18 := by
    rw [BitVec.toInt_eq_toNat_cond]
    norm_num
  have hneg := getLsbD_msb v.r
  rw [hr] at hrnat hneg
  -- the upper bits of `r` that `left` drops come back by the bounds on the result
  unfold SquareRoot.remainder at hlow hhigh ⊢
  unfold sqrtStep
  dsimp only
  by_cases hlt : s.r < 0
  · have hbit := hneg.mpr hlt
    rw [if_pos hlt] at hlow hhigh ⊢
    rw [hbit] at hright ⊢
    rw [if_pos rfl, BitVec.toInt_eq_toNat_cond, BitVec.toNat_add, hleft, hright]
    simp only [Bool.toNat_true]
    split_ifs at hrnat ⊢ <;> omega
  · have hbit : v.r.getLsbD 17 = false := by
      rw [← Bool.not_eq_true]
      exact fun h => hlt (hneg.mp h)
    rw [if_neg hlt] at hlow hhigh ⊢
    rw [hbit] at hright ⊢
    rw [if_neg Bool.false_ne_true, BitVec.toInt_eq_toNat_cond, BitVec.toNat_sub, hleft, hright]
    simp only [Bool.toNat_false]
    split_ifs at hrnat ⊢ <;> omega

/-- The bits of the root are collected below. -/
theorem toNat_root (v : SqrtVars) (h : v.q.toNat < 2 ^ 15) :
    ((sqrtStep v).q.toNat : ℤ)
      = if (sqrtStep v).r.toInt < 0 then 2 * (v.q.toNat : ℤ) else 2 * v.q.toNat + 1 := by
  have hneg := getLsbD_msb (sqrtStep v).r
  have hq : (sqrtStep v).q.toNat = 2 * v.q.toNat + (!(sqrtStep v).r.getLsbD 17).toNat := by
    show (v.q.extractLsb' 0 15 ++ BitVec.ofBool (!(sqrtStep v).r.getLsbD 17) : BitVec 16).toNat = _
    rw [toNat_append_add]
    simp only [BitVec.extractLsb'_toNat, Nat.shiftRight_eq_div_pow, BitVec.toNat_ofBool]
    omega
  rw [hq]
  by_cases hlt : (sqrtStep v).r.toInt < 0
  · rw [if_pos hlt, hneg.mpr hlt]
    simp
  · have hbit : (sqrtStep v).r.getLsbD 17 = false := by
      rw [← Bool.not_eq_true]
      exact fun h => hlt (hneg.mp h)
    rw [if_neg hlt, hbit]
    simp

/-- The variables as a state of the root over the integers. -/
def SqrtVars.state (v : SqrtVars) : SquareRoot.State where
  q := v.q.toNat
  r := v.r.toInt

/-- What holds after `i` turns: `a` holds the digits to come, and `q` and `r` belong to the
first `i` digits. -/
structure LoopInv (num : BitVec 32) (i : ℕ) (v : SqrtVars) : Prop where
  a_eq : v.a.toNat = num.toNat * 4 ^ i % 2 ^ 32
  q_lt : v.q.toNat < 2 ^ i
  inv : SquareRoot.Inv (num.toNat / 4 ^ (16 - i) : ℕ) v.state

theorem toNat_a_step (v : SqrtVars) : (sqrtStep v).a.toNat = v.a.toNat * 4 % 2 ^ 32 := by
  show (v.a.extractLsb' 0 30 ++ 0#2 : BitVec 32).toNat = _
  rw [toNat_append_add]
  simp only [BitVec.extractLsb'_toNat, Nat.shiftRight_eq_div_pow, BitVec.toNat_ofNat]
  omega

/-- The top bits of `a` are the next digit of the radicand. -/
theorem digit_eq (x i : ℕ) (hi : i < 16) :
    x / 4 ^ (16 - (i + 1)) = 4 * (x / 4 ^ (16 - i)) + x * 4 ^ i % 2 ^ 32 / 2 ^ 30 := by
  have hsplit : 2 ^ 30 = 4 ^ i * 4 ^ (15 - i) := by
    rw [← pow_add, show i + (15 - i) = 15 by omega]
    norm_num
  have hsplit' : 2 ^ 32 = 4 ^ i * (4 ^ (15 - i) * 4) := by
    rw [← mul_assoc, ← hsplit]
    norm_num
  have hdigit : x * 4 ^ i % 2 ^ 32 / 2 ^ 30 = x / 4 ^ (15 - i) % 4 := by
    calc x * 4 ^ i % 2 ^ 32 / 2 ^ 30
        = 4 ^ i * x % (4 ^ i * (4 ^ (15 - i) * 4)) / (4 ^ i * 4 ^ (15 - i)) := by
          rw [hsplit, hsplit', mul_comm x]
      _ = 4 ^ i * (x % (4 ^ (15 - i) * 4)) / (4 ^ i * 4 ^ (15 - i)) := by
          rw [Nat.mul_mod_mul_left]
      _ = x % (4 ^ (15 - i) * 4) / 4 ^ (15 - i) := Nat.mul_div_mul_left _ _ (by positivity)
      _ = x / 4 ^ (15 - i) % 4 := Nat.mod_mul_right_div_self _ _ _
  rw [hdigit, show 16 - (i + 1) = 15 - i by omega, show 16 - i = 15 - i + 1 by omega, pow_succ,
    ← Nat.div_div_eq_div_mul]
  omega

theorem LoopInv.start (num : BitVec 32) : LoopInv num 0 (sqrtLoop num 0) := by
  have hnum := num.isLt
  refine ⟨?_, ?_, ?_⟩
  · show num.toNat = num.toNat * 4 ^ 0 % 2 ^ 32
    omega
  · show 0 < 2 ^ 0
    decide
  · have hzero : num.toNat / 4 ^ (16 - 0) = 0 := Nat.div_eq_of_lt (by norm_num; omega)
    rw [hzero]
    exact SquareRoot.inv_start

/-- One turn of the loop is a step of the root over the integers. -/
theorem LoopInv.step {num : BitVec 32} {i : ℕ} {v : SqrtVars} (h : LoopInv num i v)
    (hi : i < 16) : LoopInv num (i + 1) (sqrtStep v) := by
  have hpow : 2 ^ i ≤ 2 ^ 15 := Nat.pow_le_pow_right (by omega) (by omega)
  have hdigit := digit_eq num.toNat i hi
  rw [← h.a_eq] at hdigit
  have hlt : v.a.toNat / 2 ^ 30 < 4 := by
    have := v.a.isLt
    omega
  have hnext := h.inv.step (Int.natCast_nonneg (v.a.toNat / 2 ^ 30)) (by exact_mod_cast hlt)
  have hq := h.q_lt
  have hqs : (SquareRoot.step v.state (v.a.toNat / 2 ^ 30 : ℕ)).q ≤ 2 * v.q.toNat + 1 := by
    unfold SquareRoot.step SqrtVars.state
    dsimp only
    split_ifs <;> omega
  have hr := toInt_remainder v v.state rfl rfl
    (by have := hnext.neg_le; change _ ≤ SquareRoot.remainder _ _ at this; omega)
    (by have := hnext.r_le; change SquareRoot.remainder _ _ ≤ _ at this; omega)
  have hroot := toNat_root v (by omega)
  rw [hr] at hroot
  refine ⟨?_, ?_, ?_⟩
  · rw [toNat_a_step, h.a_eq, pow_succ 4 i, ← Nat.mul_assoc, Nat.mod_mul_mod]
  · rw [pow_succ]
    split_ifs at hroot <;> omega
  · have hstate : (sqrtStep v).state = SquareRoot.step v.state (v.a.toNat / 2 ^ 30 : ℕ) := by
      unfold SqrtVars.state SquareRoot.step
      rw [hr, hroot]
      rfl
    rw [hstate, hdigit]
    push_cast at hnext ⊢
    exact hnext

theorem loopInv_sqrtLoop (num : BitVec 32) (i : ℕ) (hi : i ≤ 16) :
    LoopInv num i (sqrtLoop num i) := by
  induction i with
  | zero => exact LoopInv.start num
  | succ i ih => exact (ih (by omega)).step (by omega)

/-- The function `sqrt` is the integer square root. -/
theorem toNat_sqrt (num : BitVec 32) : (sqrt num).toNat = Nat.sqrt num.toNat := by
  have h := (loopInv_sqrtLoop num 16 (le_refl 16)).inv
  rw [Nat.sub_self, pow_zero, Nat.div_one] at h
  have hroot : ((sqrt num).toNat : ℤ) = Nat.sqrt num.toNat := h.q_eq_sqrt
  exact_mod_cast hroot

/-- **The square root is exact.** For every radicand the result is the integer whose square is
not above it and whose successor's square is. -/
theorem sqrt_exact (num : BitVec 32) (q : ℕ) :
    (sqrt num).toNat = q ↔ q * q ≤ num.toNat ∧ num.toNat < (q + 1) * (q + 1) := by
  rw [toNat_sqrt, eq_comm]
  exact Nat.eq_sqrt

end AMDemodulator

/-! ## The module -/

/-- The registers of `AMDemodulator`, those of its two multipliers included. -/
structure AMDemodulator (mult : Multiplier) where
  MultDataA : BitVec 12
  MultDataB : BitVec 12
  MultDataC : BitVec 12
  MultDataD : BitVec 12
  Multiplier1 : mult.State
  Multiplier2 : mult.State
  ISquare : BitVec 32
  d_out_d : BitVec 16
  d_out : BitVec 12

/-- The samples `I_in` and `Q_in` of one edge. -/
structure IQ where
  I_in : BitVec 12
  Q_in : BitVec 12

namespace IQ

/-- `⌊√(I^2 + Q^2)⌋`. -/
def magnitude (i : IQ) : ℕ := AmDemod.magnitude i.I_in i.Q_in

theorem square_le (b : BitVec 12) : b.toInt.natAbs ^ 2 ≤ 2 ^ 22 := by
  have h := AmDemod.four_mul_sq_le b
  norm_num at h ⊢
  omega

theorem magnitude_le (i : IQ) : i.magnitude ≤ 2896 := by
  have hI := square_le i.I_in
  have hQ := square_le i.Q_in
  have hlt : AmDemod.power i.I_in i.Q_in < 2897 ^ 2 := by
    unfold AmDemod.power
    omega
  exact Nat.le_of_lt_succ (Nat.sqrt_lt'.mpr hlt)

end IQ

namespace AMDemodulator

variable {mult : Multiplier}

/-- One rising edge of `clk`. The two products are signed, so the sum is sign-extended. -/
def step (s : AMDemodulator mult) (i : IQ) : AMDemodulator mult where
  MultDataA := i.I_in
  MultDataB := i.I_in
  MultDataC := i.Q_in
  MultDataD := i.Q_in
  Multiplier1 := mult.step s.Multiplier1 (s.MultDataA, s.MultDataB)
  Multiplier2 := mult.step s.Multiplier2 (s.MultDataC, s.MultDataD)
  ISquare := (mult.out s.Multiplier1).signExtend 32 + (mult.out s.Multiplier2).signExtend 32
  d_out_d := sqrt s.ISquare
  d_out := s.d_out_d.extractLsb' 0 12

/-! ### Nothing is lost at any width -/

/-- The sign extension of a square is the square. -/
theorem toNat_signExtend_square (b : BitVec 12) :
    ((signedProduct 12 (b, b)).signExtend 32).toNat = b.toInt.natAbs ^ 2 := by
  have hsq := AmDemod.toNat_signedProduct_self b
  have hle := IQ.square_le b
  have hmsb : (signedProduct 12 (b, b)).msb = false := by
    rw [BitVec.msb_eq_false_iff_two_mul_lt, hsq]
    norm_num at hle ⊢
    omega
  rw [BitVec.signExtend_eq_setWidth_of_msb_false hmsb, BitVec.toNat_setWidth, hsq]
  exact Nat.mod_eq_of_lt (by omega)

/-- Nor is anything lost in their sum. -/
theorem toNat_sum_of_squares (i : IQ) :
    ((signedProduct 12 (i.I_in, i.I_in)).signExtend 32
      + (signedProduct 12 (i.Q_in, i.Q_in)).signExtend 32).toNat
      = AmDemod.power i.I_in i.Q_in := by
  have hI := IQ.square_le i.I_in
  have hQ := IQ.square_le i.Q_in
  rw [BitVec.toNat_add, toNat_signExtend_square, toNat_signExtend_square, AmDemod.power]
  exact Nat.mod_eq_of_lt (by omega)

/-! ### The pipeline -/

section Pipeline

variable {L : ℕ} (hmult : mult.HasLatency L (signedProduct 12)) (s : AMDemodulator mult)
  (u : ℕ → IQ) (n : ℕ)

include hmult

/-- `ISquare` is the exact sum of the squares of the samples of `L + 1` clocks before. -/
theorem toNat_ISquare :
    (run step s u (n + L + 2)).ISquare.toNat = AmDemod.power (u n).I_in (u n).Q_in := by
  have hproduct1 : mult.out (run step s u (n + 1 + L)).Multiplier1
      = signedProduct 12 ((u n).I_in, (u n).I_in) := by
    rw [run_proj AMDemodulator.Multiplier1 (fun t _ => (t.MultDataA, t.MultDataB))
      (fun _ _ => rfl), hmult]
    rfl
  have hproduct2 : mult.out (run step s u (n + 1 + L)).Multiplier2
      = signedProduct 12 ((u n).Q_in, (u n).Q_in) := by
    rw [run_proj AMDemodulator.Multiplier2 (fun t _ => (t.MultDataC, t.MultDataD))
      (fun _ _ => rfl), hmult]
    rfl
  rw [show n + L + 2 = n + 1 + L + 1 by omega, run_succ, ← toNat_sum_of_squares, ← hproduct1,
    ← hproduct2]
  rfl

/-- `d_out_d` is the magnitude one clock later. -/
theorem toNat_d_out_d : (run step s u (n + L + 3)).d_out_d.toNat = (u n).magnitude := by
  calc (run step s u (n + L + 3)).d_out_d.toNat
      = (sqrt (run step s u (n + L + 2)).ISquare).toNat := rfl
    _ = (u n).magnitude := by rw [toNat_sqrt, toNat_ISquare hmult]; rfl

/-- `d_out` is the magnitude of the samples of `L + 3` clocks before, if the multipliers have
latency `L`. -/
theorem d_out_magnitude : (run step s u (n + L + 4)).d_out.toNat = (u n).magnitude := by
  have hle := (u n).magnitude_le
  calc (run step s u (n + L + 4)).d_out.toNat
      = ((run step s u (n + L + 3)).d_out_d.extractLsb' 0 12).toNat := rfl
    _ = (u n).magnitude % 2 ^ 12 := by
        rw [BitVec.extractLsb'_toNat, toNat_d_out_d hmult, Nat.shiftRight_zero]
    _ = (u n).magnitude := Nat.mod_eq_of_lt (by omega)

/-- **The demodulator is exact.** For every pair of samples, taken on one edge: `ISquare` holds
the integer sum of their squares, `d_out_d` as a signed number its integer root, and `d_out` the
same root, `L + 1`, `L + 2` and `L + 3` edges later. -/
theorem demodulator_exact :
    (run step s u (n + L + 2)).ISquare.toNat = AmDemod.power (u n).I_in (u n).Q_in ∧
      (run step s u (n + L + 3)).d_out_d.toInt = (u n).magnitude ∧
      (run step s u (n + L + 4)).d_out.toNat = (u n).magnitude := by
  refine ⟨toNat_ISquare hmult s u n, ?_, d_out_magnitude hmult s u n⟩
  have hroot := toNat_d_out_d hmult s u n
  have hle := (u n).magnitude_le
  rw [BitVec.toInt_eq_toNat_of_lt (by omega), hroot]

end Pipeline

/-- All registers cleared. -/
def cleared : AMDemodulator (pipeline 1 (signedProduct 12)) where
  MultDataA := 0
  MultDataB := 0
  MultDataC := 0
  MultDataD := 0
  Multiplier1 := fun _ => 0
  Multiplier2 := fun _ => 0
  ISquare := 0
  d_out_d := 0
  d_out := 0

/-- Both samples at their lowest value, for one edge only. -/
def lowestSample (n : ℕ) : IQ where
  I_in := if n = 1 then -2048 else 0
  Q_in := if n = 1 then -2048 else 0

theorem demodulator_exact_lowest :
    (run step cleared lowestSample (1 + 2 + 2)).ISquare.toNat
        = AmDemod.power (lowestSample 1).I_in (lowestSample 1).Q_in ∧
      (run step cleared lowestSample (1 + 2 + 3)).d_out_d.toInt = (lowestSample 1).magnitude ∧
      (run step cleared lowestSample (1 + 2 + 4)).d_out.toNat = (lowestSample 1).magnitude :=
  demodulator_exact (pipeline_hasLatency 1 (signedProduct 12)) cleared lowestSample 1

end AMDemodulator

end OneBitSDR
