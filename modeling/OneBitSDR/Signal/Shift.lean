import Mathlib.Algebra.Polynomial.AlgebraMap
import Mathlib.Algebra.Polynomial.Reverse
import Mathlib.Algebra.Ring.GeomSum
import Mathlib.Tactic

set_option autoImplicit false

/-! # Sequences under the shift operator

A sequence in an additive commutative group is acted on by the shift `f ↦ (n ↦ f (n + 1))`, an
endomorphism, so polynomials in the shift act too and all commute. The running sum over a
window of `K` samples is the polynomial `1 + X + ⋯ + X^(K-1)`, the difference at distance `K`
is `X^K - 1`, and the law that makes integrator-comb filters work is the identity
`(1 + ⋯ + X^(K-1)) (X - 1) = X^K - 1`.
-/

namespace Signal

open Polynomial Finset

/-! ## The shift operator -/

section Shift

variable (A : Type*) [AddCommGroup A]

/-- The shift by one sample. -/
def shift : Module.End ℤ (ℕ → A) where
  toFun f := fun n => f (n + 1)
  map_add' _ _ := rfl
  map_smul' _ _ := rfl

/-- Keeping every `R`-th sample, from sample `o` on. -/
def decimate (R o : ℕ) : (ℕ → A) →ₗ[ℤ] (ℕ → A) where
  toFun f := fun q => f (q * R + o)
  map_add' _ _ := rfl
  map_smul' _ _ := rfl

variable {A}

theorem shift_apply (f : ℕ → A) (n : ℕ) : shift A f n = f (n + 1) := rfl

theorem shift_pow_apply (k : ℕ) (f : ℕ → A) (n : ℕ) : (shift A ^ k) f n = f (n + k) := by
  induction k generalizing f n with
  | zero => rfl
  | succ k ih =>
      rw [pow_succ, Module.End.mul_apply, ih, shift_apply]
      rfl

/-- The difference at distance `M`. -/
theorem diff_apply (M : ℕ) (f : ℕ → A) (n : ℕ) :
    (shift A ^ M - 1) f n = f (n + M) - f n := by
  rw [LinearMap.sub_apply, Pi.sub_apply, shift_pow_apply]
  rfl

/-- A polynomial in the shift is a weighted sum over a window. -/
theorem aeval_shift_apply (P : ℕ[X]) (f : ℕ → A) (n : ℕ) :
    aeval (shift A) P f n = ∑ j ∈ range (P.natDegree + 1), P.coeff j • f (n + j) := by
  rw [aeval_eq_sum_range, LinearMap.sum_apply, Finset.sum_apply]
  refine Finset.sum_congr rfl fun j _ => ?_
  rw [LinearMap.smul_apply, Pi.smul_apply, shift_pow_apply]

theorem decimate_apply (R o : ℕ) (f : ℕ → A) (q : ℕ) : decimate A R o f q = f (q * R + o) := rfl

/-- A shift by `M` kept samples is a shift by `R * M` of the samples before the decimation. -/
theorem shift_pow_decimate (R o M : ℕ) (f : ℕ → A) :
    (shift A ^ M) (decimate A R o f) = decimate A R o ((shift A ^ (R * M)) f) := by
  funext q
  rw [shift_pow_apply, decimate_apply, decimate_apply, shift_pow_apply]
  congr 1
  ring

/-- Differences at distance `M` after the decimation are differences at distance `R * M`
before it. -/
theorem diff_pow_decimate (R o M S : ℕ) (f : ℕ → A) :
    ((shift A ^ M - 1) ^ S) (decimate A R o f) = decimate A R o (((shift A ^ (R * M) - 1) ^ S) f) := by
  induction S generalizing f with
  | zero => rfl
  | succ S ih =>
      have h1 : (shift A ^ M - 1) (decimate A R o f) = decimate A R o ((shift A ^ (R * M) - 1) f) := by
        rw [LinearMap.sub_apply, LinearMap.sub_apply, shift_pow_decimate, map_sub]
        rfl
      rw [pow_succ, Module.End.mul_apply, h1, ih, pow_succ, Module.End.mul_apply]

end Shift

/-! ## The window polynomial -/

/-- `1 + X + ⋯ + X^(K-1)`, the quotient `(1 - X^K) / (1 - X)`. -/
noncomputable def window (K : ℕ) : ℕ[X] := ∑ i ∈ range K, X ^ i

/-- The coefficient of `X^j` in `((1 - X^K) / (1 - X))^S`. -/
noncomputable def windowCoeff (K S j : ℕ) : ℕ := (window K ^ S).coeff j

theorem window_coeff (K j : ℕ) : (window K).coeff j = if j < K then 1 else 0 := by
  rw [window, finsetSum_coeff]
  simp [coeff_X_pow]

theorem window_natDegree {K : ℕ} (hK : 1 ≤ K) : (window K).natDegree = K - 1 := by
  apply natDegree_eq_of_le_of_coeff_ne_zero
  · rw [natDegree_le_iff_coeff_eq_zero]
    intro j hj
    rw [window_coeff, if_neg (by omega)]
  · rw [window_coeff, if_pos (by omega)]
    exact one_ne_zero

theorem window_pow_natDegree {K : ℕ} (hK : 1 ≤ K) (S : ℕ) :
    (window K ^ S).natDegree = S * (K - 1) := by
  rw [natDegree_pow, window_natDegree hK]

theorem window_reverse {K : ℕ} (hK : 1 ≤ K) : (window K).reverse = window K := by
  ext j
  rw [coeff_reverse, window_natDegree hK, window_coeff, window_coeff]
  by_cases hj : j ≤ K - 1
  · rw [revAt_le hj, if_pos (by omega), if_pos (by omega)]
  · rw [revAt_eq_self_of_lt (by omega)]

theorem window_pow_reverse {K : ℕ} (hK : 1 ≤ K) (S : ℕ) :
    (window K ^ S).reverse = window K ^ S := by
  induction S with
  | zero => rw [pow_zero, ← C_1, reverse_C]
  | succ S ih => rw [pow_succ, reverse_mul_of_domain, ih, window_reverse hK]

/-- The coefficients read the same from both ends. -/
theorem windowCoeff_symm {K : ℕ} (hK : 1 ≤ K) {S j : ℕ} (hj : j ≤ S * (K - 1)) :
    windowCoeff K S (S * (K - 1) - j) = windowCoeff K S j := by
  conv_rhs => rw [windowCoeff, ← window_pow_reverse hK S, coeff_reverse,
    window_pow_natDegree hK, revAt_le hj]
  rfl

/-- The coefficients add up to the gain `K^S` of the filter. -/
theorem sum_windowCoeff {K : ℕ} (hK : 1 ≤ K) (S : ℕ) :
    ∑ j ∈ range (S * (K - 1) + 1), windowCoeff K S j = K ^ S := by
  have h := @eval_eq_sum_range ℕ _ (window K ^ S) 1
  rw [window_pow_natDegree hK] at h
  simp only [one_pow, mul_one] at h
  rw [show (∑ j ∈ range (S * (K - 1) + 1), windowCoeff K S j)
    = ∑ j ∈ range (S * (K - 1) + 1), (window K ^ S).coeff j from rfl, ← h]
  simp [window, eval_finsetSum]

/-! ## Periodic sequences -/

section Periodic

variable {A : Type*} [AddCommGroup A] {K : ℕ} {f : ℕ → A}

/-- Every window of one period has the same sum. -/
theorem sum_period (h : ∀ n, f (n + K) = f n) (n : ℕ) :
    ∑ i ∈ range K, f (n + i) = ∑ i ∈ range K, f i := by
  induction n with
  | zero => simp
  | succ n ih =>
      -- the sample that leaves the window comes back at its end
      have hsum : ∑ i ∈ range K, f (n + (i + 1)) + f n = ∑ i ∈ range K, f (n + i) + f n := by
        have hfirst := sum_range_succ' (fun i => f (n + i)) K
        rw [sum_range_succ, h n] at hfirst
        exact hfirst.symm
      rw [← ih, ← add_right_cancel hsum]
      simp only [Nat.add_assoc, Nat.add_comm 1]

theorem window_apply (f : ℕ → A) (n : ℕ) :
    aeval (shift A) (window K) f n = ∑ i ∈ range K, f (n + i) := by
  rw [window, map_sum, LinearMap.sum_apply, Finset.sum_apply]
  refine sum_congr rfl fun i _ => ?_
  rw [map_pow, aeval_X, shift_pow_apply]

/-- Of a periodic sequence nothing but its mean gets through the windows. -/
theorem window_pow_periodic (h : ∀ n, f (n + K) = f n) (S n : ℕ) :
    aeval (shift A) (window K ^ (S + 1)) f n = K ^ S • ∑ i ∈ range K, f i := by
  induction S generalizing n with
  | zero => rw [zero_add, pow_one, window_apply, sum_period h, pow_zero, one_smul]
  | succ S ih =>
      rw [pow_succ' (window K), map_mul, Module.End.mul_apply, window_apply]
      simp only [ih]
      rw [sum_const, card_range, smul_smul, ← pow_succ']

end Periodic

end Signal
