import Mathlib.Tactic

set_option autoImplicit false

/-! # The non-restoring square root

The root is found bit by bit from the base-4 digits of the radicand. A step shifts a digit into
the remainder and subtracts `4 q + 1`; when the difference is negative the bit of the root is 0,
and the subtraction is not undone but made good by the next step, which adds `4 q + 3`. So the
remainder kept is the true one in one case and is `2 q + 1` short of it in the other.
-/

namespace Signal

namespace SquareRoot

/-- The root of the digits so far, and the remainder as it is kept. -/
structure State where
  q : ℤ
  r : ℤ

def start : State where
  q := 0
  r := 0

/-- The remainder after the next digit. -/
def remainder (s : State) (digit : ℤ) : ℤ :=
  if s.r < 0 then 4 * s.r + digit + (4 * s.q + 3) else 4 * s.r + digit - (4 * s.q + 1)

def step (s : State) (digit : ℤ) : State where
  q := if remainder s digit < 0 then 2 * s.q else 2 * s.q + 1
  r := remainder s digit

/-- `s` is the state for the radicand `x`: `x` lies between the squares of `q` and `q + 1`, and
`r` is the remainder, short of `2 q + 1` if it is negative. -/
structure Inv (x : ℤ) (s : State) : Prop where
  q_nonneg : 0 ≤ s.q
  low : s.q * s.q ≤ x
  high : x ≤ s.q * s.q + 2 * s.q
  r_eq : s.r = if s.r < 0 then x - s.q * s.q - (2 * s.q + 1) else x - s.q * s.q

theorem inv_start : Inv 0 start where
  q_nonneg := le_refl 0
  low := by decide
  high := by decide
  r_eq := by decide

variable {x : ℤ} {s : State}

theorem Inv.neg_le (h : Inv x s) : -(2 * s.q + 1) ≤ s.r := by
  have hlow := h.low
  have hr := h.r_eq
  have hq := h.q_nonneg
  split_ifs at hr <;> linarith

theorem Inv.r_le (h : Inv x s) : s.r ≤ 2 * s.q := by
  have hhigh := h.high
  have hr := h.r_eq
  have hq := h.q_nonneg
  split_ifs at hr <;> linarith

/-- Whichever of the two remainders is kept, the next one is the same. -/
theorem Inv.remainder_eq (h : Inv x s) (digit : ℤ) :
    remainder s digit = 4 * x + digit - (4 * (s.q * s.q) + 4 * s.q + 1) := by
  have hr := h.r_eq
  unfold remainder
  by_cases hneg : s.r < 0
  · rw [if_pos hneg] at hr ⊢
    linarith
  · rw [if_neg hneg] at hr ⊢
    linarith

/-- A step moves on to the radicand with one more digit. -/
theorem Inv.step (h : Inv x s) {digit : ℤ} (h0 : 0 ≤ digit) (h4 : digit < 4) :
    Inv (4 * x + digit) (step s digit) := by
  have hq := h.q_nonneg
  have hlow := h.low
  have hhigh := h.high
  have hrem := h.remainder_eq digit
  unfold SquareRoot.step
  by_cases hneg : remainder s digit < 0
  · -- the next bit of the root is 0, and the remainder stays short
    rw [if_pos hneg]
    refine ⟨by simp only; omega, ?_, ?_, ?_⟩
    · simp only
      linarith
    · simp only
      linarith
    · simp only [if_pos hneg]
      linarith
  · -- the next bit of the root is 1
    rw [if_neg hneg]
    refine ⟨by simp only; omega, ?_, ?_, ?_⟩
    · simp only
      linarith
    · simp only
      linarith
    · simp only [if_neg hneg]
      linarith

/-- The root kept is the integer square root. -/
theorem Inv.q_eq_sqrt {n : ℕ} (h : Inv n s) : s.q = Nat.sqrt n := by
  have hq := h.q_nonneg
  have hlow := h.low
  have hhigh := h.high
  rcases Int.eq_ofNat_of_zero_le hq with ⟨q, hqn⟩
  rw [hqn] at hlow hhigh ⊢
  norm_cast
  apply le_antisymm
  · rw [Nat.le_sqrt]
    exact_mod_cast hlow
  · rw [← Nat.lt_succ_iff, Nat.sqrt_lt]
    have hlt : (n : ℤ) < (q + 1) * (q + 1) := by linarith
    exact_mod_cast hlt

end SquareRoot

end Signal
