import Mathlib.Data.BitVec
import OneBitSDR.Signal.IntegratorComb

set_option autoImplicit false

/-! # Exact results in two's complement

Sums of words wrap around, but a result known to lie in the range of the word is read back
exactly. `windowResponse` is the response of an integrator-comb filter over the integers;
`cascade_response_ofInt` says that the registers of the filter hold it modulo the word size,
and `windowResponse_fits` when it lies in the range of the word.
-/

namespace Signal

open Polynomial Finset Clocked

/-! ## Words and integers -/

theorem ofInt_eq_intCast (w : ℕ) (y : ℤ) : BitVec.ofInt w y = (y : BitVec w) := rfl

/-- A concatenation as a number. -/
theorem toNat_append_add {v w : ℕ} (x : BitVec v) (y : BitVec w) :
    (x ++ y).toNat = x.toNat * 2 ^ w + y.toNat := by
  rw [BitVec.toNat_append, ← Nat.shiftLeft_add_eq_or_of_lt y.isLt, Nat.shiftLeft_eq]

/-- A value in the range of the word is read back exactly. The bounds are doubled so that they
also make sense for the empty word. -/
theorem toInt_ofInt_of_fits {w : ℕ} {y : ℤ} (hl : -2 ^ w ≤ 2 * y) (hu : 2 * y < 2 ^ w) :
    (BitVec.ofInt w y).toInt = y := by
  rw [BitVec.toInt_ofInt]
  apply Int.bmod_eq_of_le_mul_two
  · push_cast
    omega
  · push_cast
    omega

/-- The range of a signed word. -/
def Fits (w : ℕ) (y : ℤ) : Prop := -2 ^ w ≤ 2 * y ∧ 2 * y < 2 ^ w

theorem fits_toInt {w : ℕ} (b : BitVec w) : Fits w b.toInt :=
  ⟨BitVec.le_two_mul_toInt, BitVec.two_mul_toInt_lt⟩

/-- A value is read back exactly when it is in the range of the word. -/
theorem toInt_ofInt_eq_iff {w : ℕ} {y : ℤ} : (BitVec.ofInt w y).toInt = y ↔ Fits w y := by
  constructor
  · intro h
    rw [← h]
    exact fits_toInt _
  · rintro ⟨hl, hu⟩
    exact toInt_ofInt_of_fits hl hu

/-- The upper `v` bits of a value in the range of `w` bits are in the range of `v` bits. -/
theorem Fits.div {v w : ℕ} (hv : 1 ≤ v) (h : v ≤ w) {y : ℤ} (hy : Fits w y) :
    Fits v (y / 2 ^ (w - v)) := by
  have hpow : (2 : ℤ) ^ w = 2 * (2 ^ (v - 1) * 2 ^ (w - v)) := by
    rw [← pow_add, ← pow_succ', show v - 1 + (w - v) + 1 = w by omega]
  have hword : (2 : ℤ) ^ v = 2 * 2 ^ (v - 1) := by rw [← pow_succ', Nat.sub_add_cancel hv]
  have hpos : (0 : ℤ) < 2 ^ (w - v) := by positivity
  rcases hy with ⟨hl, hu⟩
  have hlow : -2 ^ (v - 1) ≤ y / 2 ^ (w - v) := by
    rw [Int.le_ediv_iff_mul_le hpos]
    linarith
  have hhigh : y / 2 ^ (w - v) < 2 ^ (v - 1) := by
    rw [Int.ediv_lt_iff_lt_mul hpos]
    linarith
  constructor
  · linarith
  · linarith

/-- Truncating a word keeps its value modulo the smaller word. -/
theorem setWidth_ofInt {v w : ℕ} (h : v ≤ w) (y : ℤ) :
    (BitVec.ofInt w y).setWidth v = BitVec.ofInt v y := by
  apply BitVec.eq_of_toInt_eq
  rw [← BitVec.signExtend_eq_setWidth_of_le _ h, BitVec.toInt_signExtend, BitVec.toInt_ofInt,
    BitVec.toInt_ofInt, Nat.min_eq_left h, Int.bmod_bmod_of_dvd]
  exact_mod_cast Nat.pow_dvd_pow 2 h

/-- An arithmetic shift of a value in range followed by a truncation is the floor of the
quotient, modulo the smaller word. -/
theorem setWidth_sshiftRight_ofInt {v w : ℕ} (h : v ≤ w) {y : ℤ} (hl : -2 ^ w ≤ 2 * y)
    (hu : 2 * y < 2 ^ w) (k : ℕ) :
    ((BitVec.ofInt w y).sshiftRight k).setWidth v = BitVec.ofInt v (y / 2 ^ k) := by
  rw [BitVec.sshiftRight, toInt_ofInt_of_fits hl hu, setWidth_ofInt h,
    Int.shiftRight_eq_div_pow]
  push_cast
  rfl

/-! ## The integer response -/

/-- The response of the filter `((1 - z^K) / (1 - z))^S` to the integer samples `x`, the newest
sample it contains being sample `n`. -/
noncomputable def windowResponse (K S : ℕ) (x : ℕ → ℤ) (n : ℕ) : ℤ :=
  ∑ j ∈ range (S * (K - 1) + 1), windowCoeff K S j * x (n - j)

/-- The response to a constant. -/
theorem windowResponse_const {K S : ℕ} (hK : 1 ≤ K) (c : ℤ) (n : ℕ) :
    windowResponse K S (fun _ => c) n = K ^ S * c := by
  have hsum : ∑ j ∈ range (S * (K - 1) + 1), (windowCoeff K S j : ℤ) = (K : ℤ) ^ S := by
    exact_mod_cast sum_windowCoeff hK S
  rw [windowResponse, ← sum_mul, hsum]

theorem windowResponse_congr {K S n m : ℕ} {x y : ℕ → ℤ}
    (h : ∀ j ≤ S * (K - 1), x (n - j) = y (m - j)) :
    windowResponse K S x n = windowResponse K S y m := by
  refine sum_congr rfl fun j hj => ?_
  rw [h j (by have := mem_range.mp hj; omega)]

/-- The response as a polynomial in the shift, applied to the samples from the oldest one on. -/
theorem windowResponse_eq_aeval {K S : ℕ} (hK : 1 ≤ K) (x : ℕ → ℤ) (n : ℕ) :
    windowResponse K S x (n + S * (K - 1)) = aeval (shift ℤ) (window K ^ S) x n := by
  have hreflect := response_reflect (S := S) K hK (fun j => x (n + j))
  rw [aeval_shift_apply, window_pow_natDegree hK]
  refine Eq.trans ?_ hreflect.symm
  refine sum_congr rfl fun j hj => ?_
  have hj' : j ≤ S * (K - 1) := by have := mem_range.mp hj; omega
  rw [nsmul_eq_mul, Nat.add_sub_assoc hj']

/-- The response to samples of the period `K` is constant: every window takes their sum. -/
theorem windowResponse_periodic {K S N n : ℕ} {x : ℕ → ℤ} (hK : 1 ≤ K)
    (h : ∀ m, N ≤ m → x (m + K) = x m) (hn : N + (S + 1) * (K - 1) ≤ n) :
    windowResponse K (S + 1) x n = K ^ S * ∑ i ∈ range K, x (N + i) := by
  obtain ⟨d, rfl⟩ := Nat.exists_eq_add_of_le hn
  -- the samples from `N` on, as far as the windows reach
  have hlate : windowResponse K (S + 1) x (N + (S + 1) * (K - 1) + d)
      = windowResponse K (S + 1) (fun m => x (N + m)) (d + (S + 1) * (K - 1)) := by
    apply windowResponse_congr
    intro j hj
    congr 1
    omega
  have hperiod : ∀ m, x (N + (m + K)) = x (N + m) := fun m => by
    rw [← Nat.add_assoc]
    exact h (N + m) (Nat.le_add_right N m)
  rw [hlate, windowResponse_eq_aeval hK, window_pow_periodic hperiod, nsmul_eq_mul]
  push_cast
  rfl

/-- The response to samples of `w` bits fits `w + S * ⌈log₂ K⌉` bits. -/
theorem windowResponse_fits {K S w : ℕ} (hK : 1 ≤ K) (b : ℕ → BitVec w) (n : ℕ) :
    -2 ^ (w + S * Nat.clog 2 K) ≤ 2 * windowResponse K S (fun k => (b k).toInt) n
      ∧ 2 * windowResponse K S (fun k => (b k).toInt) n < 2 ^ (w + S * Nat.clog 2 K) := by
  have hsum : ∑ j ∈ range (S * (K - 1) + 1), (windowCoeff K S j : ℤ) = (K : ℤ) ^ S := by
    exact_mod_cast sum_windowCoeff hK S
  have hgain : (K : ℤ) ^ S ≤ 2 ^ (S * Nat.clog 2 K) := by
    have : K ^ S ≤ (2 ^ Nat.clog 2 K) ^ S := Nat.pow_le_pow_left (Nat.le_pow_clog (by omega) K) S
    rw [← pow_mul, mul_comm] at this
    exact_mod_cast this
  have hpos : (0 : ℤ) < (K : ℤ) ^ S := by positivity
  have hrange : (2 : ℤ) ^ w * (K : ℤ) ^ S ≤ 2 ^ (w + S * Nat.clog 2 K) := by
    rw [pow_add]
    exact mul_le_mul_of_nonneg_left hgain (by positivity)
  -- every sample lies between `-2^(w-1)` and `2^(w-1) - 1`, and the coefficients are not negative
  have hlow : -2 ^ w * (K : ℤ) ^ S ≤ 2 * windowResponse K S (fun k => (b k).toInt) n := by
    rw [windowResponse, ← hsum, mul_sum, mul_sum]
    refine sum_le_sum fun j _ => ?_
    have := BitVec.le_two_mul_toInt (x := b (n - j))
    nlinarith [Int.natCast_nonneg (windowCoeff K S j)]
  have hhigh : 2 * windowResponse K S (fun k => (b k).toInt) n ≤ (2 ^ w - 1) * (K : ℤ) ^ S := by
    rw [windowResponse, ← hsum, mul_sum, mul_sum]
    refine sum_le_sum fun j _ => ?_
    have := BitVec.two_mul_toInt_lt (x := b (n - j))
    nlinarith [Int.natCast_nonneg (windowCoeff K S j)]
  constructor
  · linarith
  · linarith

/-! ## The registers hold the response -/

variable {S M w W : ℕ}

/-- The last node of the combs holds the integer response modulo the word size, for samples
that are sign-extended into the word. -/
theorem cascade_response_ofInt (hS : 0 < S) (hM : 0 < M) (R o : ℕ) (hR : 0 < R)
    (r : Fin S → BitVec W) (c : Combs (BitVec W) S M) (b : ℕ → BitVec w) (q : ℕ) :
    (run (Combs.step hM) c
        (fun k => run integrate r (fun n => (b n).signExtend W) (k * R + o)
          ⟨S - 1, Nat.pred_lt_self hS⟩)
        (q + S * (M + 1))).node ⟨S - 1, Nat.pred_lt_self hS⟩
      = BitVec.ofInt W (windowResponse (R * M) S (fun k => (b k).toInt)
          (q * R + o + S * (R * M - 1))) := by
  rw [cascade_response hS hM R o hR, response_reflect (R * M) (Nat.mul_pos hR hM), windowResponse,
    ofInt_eq_intCast, Int.cast_sum]
  refine sum_congr rfl fun j hj => ?_
  have hj' : j ≤ S * (R * M - 1) := by have := mem_range.mp hj; omega
  rw [nsmul_eq_mul, Int.cast_mul, Int.cast_natCast, Nat.add_sub_assoc hj']
  rfl

end Signal
