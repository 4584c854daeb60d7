import Mathlib.Analysis.Complex.Trigonometric
import Mathlib.Analysis.Real.Pi.Bounds
import Mathlib.NumberTheory.Zsqrtd.GaussianInt
import Mathlib.Tactic

set_option autoImplicit false

/-! # Checking a table of sines

A Gaussian integer `z` stands for the complex number `z / P`. Multiplying it by a fixed `ζ` close to
`exp (δ * I)`, and dropping what does not fit, turns it by nearly `δ`: the distance from the exact
point grows by the same amount with every turn, because an exact turn does not change lengths. So
the orbit of `1` holds the sines of all multiples of `δ`, and a table of rounded sines is checked
against it in integers.
-/

namespace Signal

open Complex

/-! ## One turn -/

/-- The complex number that `z` stands for. -/
noncomputable def scaled (P : ℕ) (z : GaussianInt) : ℂ := z / P

/-- One turn by `ζ`, rounded down. -/
def rotate (P : ℕ) (ζ z : GaussianInt) : GaussianInt where
  re := (z * ζ).re / P
  im := (z * ζ).im / P

/-- Rounding down loses less than one unit. -/
theorem abs_ediv_sub_le {P : ℕ} (hP : 0 < P) (x : ℤ) : |((x / P : ℤ) : ℝ) - x / P| ≤ 1 := by
  have hpos : (0 : ℝ) < P := by exact_mod_cast hP
  have hlow : x / P * P ≤ x := Int.ediv_mul_le x (by omega)
  have hhigh : x < (x / P + 1) * P := Int.lt_ediv_add_one_mul_self x (by omega)
  have hlow' : ((x / P : ℤ) : ℝ) * P ≤ x := by exact_mod_cast hlow
  have hhigh' : (x : ℝ) < (((x / P : ℤ) : ℝ) + 1) * P := by exact_mod_cast hhigh
  rw [← le_div_iff₀ hpos] at hlow'
  rw [← div_lt_iff₀ hpos] at hhigh'
  rw [abs_le]
  constructor <;> linarith

/-- The rounding of a turn. -/
theorem norm_rotate_sub {P : ℕ} (hP : 0 < P) (ζ z : GaussianInt) :
    ‖scaled P (rotate P ζ z) - scaled P z * scaled P ζ‖ ≤ 2 / P := by
  have hpos : (0 : ℝ) < P := by exact_mod_cast hP
  have hne : (P : ℂ) ≠ 0 := by exact_mod_cast hP.ne'
  have hsplit : scaled P (rotate P ζ z) - scaled P z * scaled P ζ
      = ((((z * ζ).re / P : ℤ) - ((z * ζ).re : ℝ) / P : ℝ)
          + (((z * ζ).im / P : ℤ) - ((z * ζ).im : ℝ) / P : ℝ) * I) / P := by
    have hmul : (z : ℂ) * ζ = (z * ζ).re + (z * ζ).im * I := by
      rw [← GaussianInt.toComplex_mul, GaussianInt.toComplex_def]
    have hprod : scaled P z * scaled P ζ = ((z * ζ).re + (z * ζ).im * I) / P / P := by
      rw [← hmul, scaled, scaled]
      ring
    rw [hprod, scaled, GaussianInt.toComplex_def, rotate]
    push_cast
    ring
  have hre := abs_ediv_sub_le hP (z * ζ).re
  have him := abs_ediv_sub_le hP (z * ζ).im
  rw [hsplit, norm_div, Complex.norm_natCast]
  refine div_le_div_of_nonneg_right ?_ hpos.le
  refine (Complex.norm_le_abs_re_add_abs_im _).trans ?_
  simp only [add_re, add_im, ofReal_re, ofReal_im, mul_re, mul_im, I_re, I_im, mul_zero,
    sub_zero, add_zero, mul_one, zero_add]
  linarith

section Turn

variable {P : ℕ} {ζ z : GaussianInt} {ω w : ℂ} {η e : ℝ}

/-- A turn adds twice the error of `ζ` and the rounding to the distance. -/
theorem rotate_near (hP : 0 < P) (hω : ‖ω‖ = 1) (hw : ‖w‖ = 1) (hζ : ‖scaled P ζ - ω‖ ≤ η)
    (hz : ‖scaled P z - w‖ ≤ e) (he : e ≤ 1) :
    ‖scaled P (rotate P ζ z) - w * ω‖ ≤ e + (2 * η + 2 / P) := by
  have hround := norm_rotate_sub hP ζ z
  have hlength : ‖scaled P z‖ ≤ 2 := by
    calc ‖scaled P z‖ = ‖(scaled P z - w) + w‖ := by rw [sub_add_cancel]
      _ ≤ ‖scaled P z - w‖ + ‖w‖ := norm_add_le _ _
      _ ≤ 2 := by rw [hw]; linarith
  have hη : 0 ≤ η := (norm_nonneg _).trans hζ
  calc ‖scaled P (rotate P ζ z) - w * ω‖
      = ‖(scaled P (rotate P ζ z) - scaled P z * scaled P ζ)
          + (scaled P z * (scaled P ζ - ω) + (scaled P z - w) * ω)‖ := by congr 1; ring
    _ ≤ ‖scaled P (rotate P ζ z) - scaled P z * scaled P ζ‖
          + (‖scaled P z * (scaled P ζ - ω)‖ + ‖(scaled P z - w) * ω‖) :=
        (norm_add_le _ _).trans (add_le_add_right (norm_add_le _ _) _)
    _ = ‖scaled P (rotate P ζ z) - scaled P z * scaled P ζ‖
          + (‖scaled P z‖ * ‖scaled P ζ - ω‖ + ‖scaled P z - w‖) := by
        rw [norm_mul, norm_mul, hω, mul_one]
    _ ≤ 2 / P + (2 * η + e) :=
        add_le_add hround
          (add_le_add (mul_le_mul hlength hζ (norm_nonneg _) (by norm_num)) hz)
    _ = e + (2 * η + 2 / P) := by ring

/-- The orbit of `1`: after `n` turns. -/
theorem iterate_near (hP : 0 < P) (hω : ‖ω‖ = 1) (hζ : ‖scaled P ζ - ω‖ ≤ η) {n : ℕ}
    (hn : n * (2 * η + 2 / P) ≤ 1) :
    ‖scaled P ((rotate P ζ)^[n] ⟨P, 0⟩) - ω ^ n‖ ≤ n * (2 * η + 2 / P) := by
  have hη : 0 ≤ η := (norm_nonneg _).trans hζ
  have hstep : 0 ≤ 2 * η + 2 / (P : ℝ) := by positivity
  induction n with
  | zero =>
      have hne : (P : ℂ) ≠ 0 := by exact_mod_cast hP.ne'
      have hone : scaled P ⟨P, 0⟩ = 1 := by
        rw [scaled, GaussianInt.toComplex_def']
        simp [hne]
      simp [hone]
  | succ n ih =>
      push_cast at hn ⊢
      have hle : n * (2 * η + 2 / (P : ℝ)) ≤ 1 := by nlinarith
      have hpow : ‖ω ^ n‖ = 1 := by rw [norm_pow, hω, one_pow]
      rw [Function.iterate_succ_apply', pow_succ]
      have h := rotate_near hP hω hpow hζ (ih hle) hle
      linarith

end Turn

/-! ## Turning by an angle -/

/-- The components of a point close to `exp (δ * I)` for a small `δ`. -/
theorem norm_sub_exp_le {δ : ℝ} (hδ : |δ| ≤ 1) (z : ℂ) :
    ‖z - exp (δ * I)‖
      ≤ |z.re - (1 - δ ^ 2 / 2)| + |z.im - (δ - δ ^ 3 / 6)|
        + (|δ| ^ 4 * (5 / 96) + |δ| ^ 5 / 100) := by
  have hcos := Real.cos_bound hδ
  have hsin := Real.sin_bound hδ
  have hre : |z.re - Real.cos δ| ≤ |z.re - (1 - δ ^ 2 / 2)| + |δ| ^ 4 * (5 / 96) := by
    rw [abs_sub_comm (Real.cos δ)] at hcos
    exact (abs_sub_le _ _ _).trans (add_le_add_right hcos _)
  have him : |z.im - Real.sin δ| ≤ |z.im - (δ - δ ^ 3 / 6)| + |δ| ^ 5 / 100 := by
    rw [abs_sub_comm (Real.sin δ)] at hsin
    exact (abs_sub_le _ _ _).trans (add_le_add_right hsin _)
  calc ‖z - exp (δ * I)‖
      ≤ |(z - exp (δ * I)).re| + |(z - exp (δ * I)).im| := Complex.norm_le_abs_re_add_abs_im _
    _ = |z.re - Real.cos δ| + |z.im - Real.sin δ| := by
        rw [sub_re, sub_im, exp_ofReal_mul_I_re, exp_ofReal_mul_I_im]
    _ ≤ |z.re - (1 - δ ^ 2 / 2)| + |z.im - (δ - δ ^ 3 / 6)|
          + (|δ| ^ 4 * (5 / 96) + |δ| ^ 5 / 100) := by linarith

/-- The orbit of `1` holds the sines of the multiples of `δ`. -/
theorem iterate_im_near {P : ℕ} (hP : 0 < P) {ζ : GaussianInt} {δ η : ℝ}
    (hζ : ‖scaled P ζ - exp (δ * I)‖ ≤ η) {n : ℕ} (hn : n * (2 * η + 2 / P) ≤ 1) :
    |(((rotate P ζ)^[n] ⟨P, 0⟩).im : ℝ) / P - Real.sin (n * δ)| ≤ n * (2 * η + 2 / P) := by
  have h := iterate_near hP (norm_exp_ofReal_mul_I δ) hζ hn
  have hpow : exp (δ * I) ^ n = exp ((n * δ : ℝ) * I) := by
    rw [← Complex.exp_nat_mul]
    congr 1
    push_cast
    ring
  have him : (((rotate P ζ)^[n] ⟨P, 0⟩).im : ℝ) / P - Real.sin (n * δ)
      = (scaled P ((rotate P ζ)^[n] ⟨P, 0⟩) - exp ((n * δ : ℝ) * I)).im := by
    rw [sub_im, exp_ofReal_mul_I_im, scaled, Complex.div_natCast_im, ← GaussianInt.intCast_im]
  rw [him, ← hpow]
  exact (Complex.abs_im_le_norm _).trans h

/-! ## The check -/

/-- `A * y / P` is `E / P` inside the range from `l` to `u`. -/
def within (P : ℕ) (A E : ℕ) (l u y : ℤ) : Bool :=
  decide (l * P + E ≤ A * y ∧ A * y + E < u * P)

/-- A value close to one that is well inside a range is in that range. -/
theorem within_bounds {P A E : ℕ} (hP : 0 < P) {l u y : ℤ} (h : within P A E l u y = true)
    {x e : ℝ} (hx : |y / P - x| ≤ e) (hE : A * (e * P) ≤ E) : l ≤ A * x ∧ A * x < u := by
  have hpos : (0 : ℝ) < P := by exact_mod_cast hP
  obtain ⟨hl, hu⟩ := of_decide_eq_true h
  have hl' : (l : ℝ) * P + E ≤ A * y := by exact_mod_cast hl
  have hu' : (A : ℝ) * y + E < u * P := by exact_mod_cast hu
  obtain ⟨hlow, hhigh⟩ := abs_le.mp hx
  -- both sides times `P`
  have hxP : |(y : ℝ) - x * P| ≤ e * P := by
    have hdiff : (y : ℝ) - x * P = (y / P - x) * P := by
      rw [sub_mul, div_mul_cancel₀ _ hpos.ne']
    rw [hdiff, abs_mul, abs_of_pos hpos]
    exact mul_le_mul_of_nonneg_right hx hpos.le
  have hA : |(A : ℝ) * y - A * x * P| ≤ E := by
    have hdiff : (A : ℝ) * y - A * x * P = A * (y - x * P) := by ring
    rw [hdiff, abs_mul, abs_of_nonneg (Nat.cast_nonneg A)]
    exact (mul_le_mul_of_nonneg_left hxP (Nat.cast_nonneg A)).trans hE
  obtain ⟨hAl, hAu⟩ := abs_le.mp hA
  constructor
  · refine le_of_mul_le_mul_right ?_ hpos
    linarith
  · refine lt_of_mul_lt_mul_right ?_ hpos.le
    linarith

/-- Every entry of a table is checked against the orbit, `stride` turns from entry to entry. -/
def agrees (P : ℕ) (ζ : GaussianInt) (stride : ℕ) (near : ℕ → ℤ → Bool) :
    GaussianInt → List ℕ → Bool
  | _, [] => true
  | z, v :: vs => near v z.im && agrees P ζ stride near ((rotate P ζ)^[stride] z) vs

theorem near_of_agrees {P : ℕ} {ζ : GaussianInt} {stride : ℕ} {near : ℕ → ℤ → Bool}
    {z : GaussianInt} {vs : List ℕ} (h : agrees P ζ stride near z vs = true) {k : ℕ}
    (hk : k < vs.length) : near vs[k] ((rotate P ζ)^[stride * k] z).im = true := by
  induction vs generalizing z k with
  | nil => cases hk
  | cons v vs ih =>
      rw [agrees, Bool.and_eq_true] at h
      cases k with
      | zero => exact h.1
      | succ k =>
          have hnext := ih h.2 (Nat.lt_of_succ_lt_succ hk)
          rw [← Function.iterate_add_apply, ← Nat.mul_succ] at hnext
          exact hnext

/-! ## The 4096th part of a turn -/

/-- `exp (π / 2048 * I)` in units of `2^-64`. -/
def fineTurn : GaussianInt where
  re := 18446722370219950522
  im := 28296939910535068

theorem fineTurn_near :
    ‖scaled (2 ^ 64) fineTurn - exp ((Real.pi / 2048 : ℝ) * I)‖ ≤ 3 / 10 ^ 13 := by
  have hlow := Real.pi_gt_d20
  have hhigh := Real.pi_lt_d20
  set δ : ℝ := Real.pi / 2048 with hδ
  have hl : 3.14159265358979323846 / 2048 ≤ δ := by rw [hδ]; linarith
  have hu : δ ≤ 3.14159265358979323847 / 2048 := by rw [hδ]; linarith
  have hpos : 0 ≤ δ := by linarith
  have hre : |(scaled (2 ^ 64) fineTurn).re - (1 - δ ^ 2 / 2)| ≤ 1 / 10 ^ 18 := by
    have hl2 := pow_le_pow_left₀ (by norm_num) hl 2
    have hu2 := pow_le_pow_left₀ hpos hu 2
    have hval : (scaled (2 ^ 64) fineTurn).re = 18446722370219950522 / 2 ^ 64 := by
      rw [scaled, GaussianInt.toComplex_def, fineTurn]
      norm_num
    rw [hval, abs_le]
    constructor
    · norm_num at hl2 hu2 ⊢
      linarith
    · norm_num at hl2 hu2 ⊢
      linarith
  have him : |(scaled (2 ^ 64) fineTurn).im - (δ - δ ^ 3 / 6)| ≤ 1 / 10 ^ 18 := by
    have hl3 := pow_le_pow_left₀ (by norm_num) hl 3
    have hu3 := pow_le_pow_left₀ hpos hu 3
    have hval : (scaled (2 ^ 64) fineTurn).im = 28296939910535068 / 2 ^ 64 := by
      rw [scaled, GaussianInt.toComplex_def, fineTurn]
      norm_num
    rw [hval, abs_le]
    constructor
    · norm_num at hl hu hl3 hu3 ⊢
      linarith
    · norm_num at hl hu hl3 hu3 ⊢
      linarith
  have hfour := pow_le_pow_left₀ hpos hu 4
  have hfive := pow_le_pow_left₀ hpos hu 5
  have hsmall : |δ| ≤ 1 := by
    rw [abs_of_nonneg hpos]
    linarith
  refine (norm_sub_exp_le hsmall _).trans ?_
  rw [abs_of_nonneg hpos]
  norm_num at hfour hfive hre him ⊢
  linarith

/-- The multiples of the 4096th part of a turn, up to a quarter of a turn. -/
def fineOrbit (n : ℕ) : GaussianInt := (rotate (2 ^ 64) fineTurn)^[n] ⟨(2 ^ 64 : ℕ), 0⟩

theorem fineOrbit_im_near {n : ℕ} (hn : n ≤ 1024) :
    |((fineOrbit n).im : ℝ) / (2 ^ 64 : ℕ) - Real.sin (n * (Real.pi / 2048))| ≤ 62 / 10 ^ 11 := by
  have hle : n * (2 * (3 / 10 ^ 13) + 2 / ((2 ^ 64 : ℕ) : ℝ)) ≤ 62 / 10 ^ 11 := by
    have hn' : (n : ℝ) ≤ 1024 := by exact_mod_cast hn
    norm_num
    linarith
  exact (iterate_im_near (by positivity) fineTurn_near (hle.trans (by norm_num))).trans hle

/-- A table that agrees with the orbit holds values between `l` and `u` of the sine with amplitude
`A`; its entries are `stride` parts of the turn apart. -/
theorem sin_of_agrees {A E o stride : ℕ} {l u : ℕ → ℤ} {vs : List ℕ}
    (h : agrees (2 ^ 64) fineTurn stride (fun v y => within (2 ^ 64) A E (l v) (u v) y)
      (fineOrbit o) vs = true) (hE : A * 2 ^ 64 * 62 ≤ E * 10 ^ 11) {k : ℕ} (hk : k < vs.length)
    (hn : stride * k + o ≤ 1024) :
    l vs[k] ≤ A * Real.sin ((stride * k + o : ℕ) * (Real.pi / 2048)) ∧
      A * Real.sin ((stride * k + o : ℕ) * (Real.pi / 2048)) < u vs[k] := by
  have hwithin := near_of_agrees h hk
  rw [fineOrbit, ← Function.iterate_add_apply] at hwithin
  refine within_bounds (by positivity) hwithin (fineOrbit_im_near hn) ?_
  have hE' : (A : ℝ) * 2 ^ 64 * 62 ≤ E * 10 ^ 11 := by exact_mod_cast hE
  push_cast
  linarith

end Signal
