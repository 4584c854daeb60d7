import Mathlib.Data.BitVec
import Mathlib.Data.Nat.Count
import OneBitSDR.Clocked.Run

set_option autoImplicit false

/-! # Phase accumulators

A word of `w` bits read as an angle, `2^w` being a full turn. The first section cuts an angle
into its upper bits and the rest. The second is about a register that adds an increment on every
edge: its value after a run, and the number of times its most significant bit has fallen, which
is the number of full turns as long as one increment is at most half a turn.
-/

namespace Signal

open Clocked

/-! ## The upper bits of an angle -/

/-- The upper `t` bits of an angle. -/
def upper {w : ℕ} (t : ℕ) (phase : BitVec w) : BitVec t := phase.extractLsb' (w - t) t

theorem toNat_upper {w : ℕ} (t : ℕ) (phase : BitVec w) :
    (upper t phase).toNat = phase.toNat / 2 ^ (w - t) % 2 ^ t := by
  rw [upper, BitVec.extractLsb'_toNat, Nat.shiftRight_eq_div_pow]

/-- A `2^t`-th turn added to the angle is a one added to its upper `t` bits. -/
theorem upper_add_ofNat {w t : ℕ} (h : t ≤ w) (phase : BitVec w) (x : ℕ) :
    upper t (phase + BitVec.ofNat w (x * 2 ^ (w - t))) = upper t phase + BitVec.ofNat t x := by
  have hw : 2 ^ w = 2 ^ (w - t) * 2 ^ t := by rw [← pow_add, Nat.sub_add_cancel h]
  have hpos : 0 < 2 ^ (w - t) := by positivity
  apply BitVec.eq_of_toNat_eq
  calc (upper t (phase + BitVec.ofNat w (x * 2 ^ (w - t)))).toNat
      = (phase.toNat + x * 2 ^ (w - t)) % (2 ^ (w - t) * 2 ^ t) / 2 ^ (w - t) % 2 ^ t := by
        rw [toNat_upper, BitVec.toNat_add, BitVec.toNat_ofNat, Nat.add_mod_mod, hw]
    _ = (phase.toNat / 2 ^ (w - t) + x) % 2 ^ t := by
        rw [Nat.mod_mul_right_div_self, Nat.add_mul_div_right _ _ hpos, Nat.mod_mod]
    _ = (upper t phase + BitVec.ofNat t x).toNat := by
        rw [BitVec.toNat_add, BitVec.toNat_ofNat, toNat_upper, ← Nat.add_mod]

/-- The bits below the `2^t`-th turn do not see it. -/
theorem setWidth_add_ofNat {w t : ℕ} (h : t ≤ w) (phase : BitVec w) (x : ℕ) :
    (phase + BitVec.ofNat w (x * 2 ^ (w - t))).setWidth (w - t) = phase.setWidth (w - t) := by
  have hw : 2 ^ w = 2 ^ (w - t) * 2 ^ t := by rw [← pow_add, Nat.sub_add_cancel h]
  apply BitVec.eq_of_toNat_eq
  calc ((phase + BitVec.ofNat w (x * 2 ^ (w - t))).setWidth (w - t)).toNat
      = (phase.toNat + x * 2 ^ (w - t)) % (2 ^ (w - t) * 2 ^ t) % 2 ^ (w - t) := by
        rw [BitVec.toNat_setWidth, BitVec.toNat_add, BitVec.toNat_ofNat, Nat.add_mod_mod, hw]
    _ = phase.toNat % 2 ^ (w - t) := by
        rw [Nat.mod_mul_right_mod, Nat.add_mul_mod_self_right]
    _ = (phase.setWidth (w - t)).toNat := (BitVec.toNat_setWidth _ _).symm

/-- The quotient of a negated number is the negated quotient exactly when nothing is left over. -/
theorem neg_div_eq_iff {d m x : ℕ} (hm : 2 ≤ m) (hx : x < d * m) :
    (d * m - x) / d % m = (m - x / d) % m ↔ d ∣ x := by
  cases x with
  | zero =>
      have hd : 0 < d := Nat.pos_of_mul_pos_right hx
      simp [Nat.mul_div_cancel_left m hd]
  | succ x =>
      have hq : x / d < m := Nat.div_lt_of_lt_mul (by omega)
      have hlt : m - (x / d + 1) < m := Nat.sub_lt (by omega) (Nat.succ_pos _)
      have hneg : (d * m - (x + 1)) / d % m = m - (x / d + 1) := by
        rw [Nat.mul_sub_div _ _ _ (by omega)]
        exact Nat.mod_eq_of_lt hlt
      rw [hneg, Nat.succ_div]
      by_cases hd : d ∣ x + 1
      · rw [if_pos hd, Nat.mod_eq_of_lt hlt]
        exact iff_of_true rfl hd
      · rw [if_neg hd, Nat.add_zero]
        refine iff_of_false ?_ hd
        rcases Nat.eq_zero_or_pos (x / d) with h0 | h0
        · rw [h0, Nat.sub_zero, Nat.mod_self]
          omega
        · rw [Nat.mod_eq_of_lt (by omega)]
          omega

/-- The upper bits of a negated word are the negated upper bits exactly when nothing but zeros
was dropped. -/
theorem upper_neg_eq_iff {w t : ℕ} (ht : 0 < t) (h : t ≤ w) (x : BitVec w) :
    upper t (-x) = -upper t x ↔ x.setWidth (w - t) = 0 := by
  have hw : 2 ^ w = 2 ^ (w - t) * 2 ^ t := by rw [← pow_add, Nat.sub_add_cancel h]
  have hlt : x.toNat < 2 ^ (w - t) * 2 ^ t := hw ▸ x.isLt
  have hneg : (upper t (-x)).toNat = (2 ^ (w - t) * 2 ^ t - x.toNat) / 2 ^ (w - t) % 2 ^ t := by
    rw [toNat_upper, BitVec.toNat_neg, hw, Nat.mod_mul_right_div_self, Nat.mod_mod]
  have hupper : (-upper t x).toNat = (2 ^ t - x.toNat / 2 ^ (w - t)) % 2 ^ t := by
    rw [BitVec.toNat_neg, toNat_upper, Nat.mod_eq_of_lt (Nat.div_lt_of_lt_mul hlt)]
  rw [← BitVec.toNat_inj, ← BitVec.toNat_inj, hneg, hupper, neg_div_eq_iff (Nat.le_pow ht) hlt,
    BitVec.toNat_setWidth]
  exact Nat.dvd_iff_mod_eq_zero

/-! ## Quadrants -/

section Quadrant

variable {w : ℕ}

/-- A quarter of a turn. -/
def quarterTurn (w : ℕ) : BitVec w := BitVec.ofNat w (2 ^ (w - 2))

/-- Half a turn. -/
def halfTurn (w : ℕ) : BitVec w := BitVec.ofNat w (2 ^ (w - 1))

/-- The quadrant of an angle, its upper two bits. -/
def quadrant (theta : BitVec w) : BitVec 2 := theta.extractLsb' (w - 2) 2

/-- The angle within the quadrant. -/
def low (theta : BitVec w) : BitVec (w - 2) := theta.setWidth (w - 2)

/-- A quadrant is one of four. -/
theorem quadrant_cases (q : BitVec 2) : q = 0b00#2 ∨ q = 0b01#2 ∨ q = 0b10#2 ∨ q = 0b11#2 := by
  revert q
  decide

theorem quadrant_add_quarterTurn (hw : 2 ≤ w) (theta : BitVec w) :
    quadrant (theta + quarterTurn w) = quadrant theta + 1 := by
  have h := upper_add_ofNat hw theta 1
  rw [Nat.one_mul] at h
  exact h

theorem low_add_quarterTurn (hw : 2 ≤ w) (theta : BitVec w) :
    low (theta + quarterTurn w) = low theta := by
  have h := setWidth_add_ofNat hw theta 1
  rw [Nat.one_mul] at h
  exact h

theorem quarterTurn_add_quarterTurn (hw : 2 ≤ w) : quarterTurn w + quarterTurn w = halfTurn w := by
  rw [quarterTurn, halfTurn, ← BitVec.ofNat_add, ← Nat.two_mul, ← pow_succ',
    show w - 2 + 1 = w - 1 by omega]

/-- Half a turn for the accumulator is half a turn for the angle cut out of it. -/
theorem upper_add_halfTurn {t : ℕ} (ht : 1 ≤ t) (h : t ≤ w) (phase : BitVec w) :
    upper t (phase + halfTurn w) = upper t phase + halfTurn t := by
  have hpow : 2 ^ (w - 1) = 2 ^ (t - 1) * 2 ^ (w - t) := by
    rw [← pow_add, show t - 1 + (w - t) = w - 1 by omega]
  rw [halfTurn, hpow]
  exact upper_add_ofNat h phase _

end Quadrant

/-! ## Counting the edges of a signal -/

/-- The falling edges of a signal in its first `N` clocks. -/
def falls (b : ℕ → Bool) (N : ℕ) : ℕ := Nat.count (fun k => b k = true ∧ b (k + 1) = false) N

/-- The rising edges of a signal in its first `N` clocks. -/
def rises (b : ℕ → Bool) (N : ℕ) : ℕ := Nat.count (fun k => b k = false ∧ b (k + 1) = true) N

/-- A signal rises where its complement falls. -/
theorem rises_not (b : ℕ → Bool) (N : ℕ) : rises (fun k => !b k) N = falls b N := by
  simp [rises, falls]

theorem falls_succ (b : ℕ → Bool) (N : ℕ) :
    falls b (N + 1) = falls b N + if b N = true ∧ b (N + 1) = false then 1 else 0 :=
  Nat.count_succ _ N

/-! ## The accumulator -/

/-- A register that adds its input holds the sum of the inputs. -/
theorem run_accumulate {w : ℕ} (phase : BitVec w) (inc : ℕ → BitVec w) (n : ℕ) :
    run (· + ·) phase inc n = phase + ∑ k ∈ Finset.range n, inc k := by
  induction n with
  | zero => simp
  | succ n ih => rw [run_succ, ih, Finset.sum_range_succ, BitVec.add_assoc]

/-- One increment of at most half a turn: the top bit falls exactly when a turn is completed. -/
theorem toNat_add_of_le_half {w : ℕ} (phase : BitVec w) {inc : BitVec w} (hinc : 2 * inc.toNat ≤ 2 ^ w) :
    (if phase.msb = true ∧ (phase + inc).msb = false then 1 else 0) * 2 ^ w
        + (phase + inc).toNat
      = phase.toNat + inc.toNat := by
  have hp := phase.isLt
  have hsum := Nat.mod_add_div (phase.toNat + inc.toNat) (2 ^ w)
  rw [← BitVec.toNat_add] at hsum
  simp only [BitVec.msb_eq_true_iff_two_mul_ge, BitVec.msb_eq_false_iff_two_mul_lt]
  -- the quotient of the sum is the carry out of the word
  rcases Nat.lt_or_ge (phase.toNat + inc.toNat) (2 ^ w) with hlt | hge
  · rw [Nat.div_eq_of_lt hlt] at hsum
    rw [if_neg (by omega)]
    omega
  · have hone : (phase.toNat + inc.toNat) / 2 ^ w = 1 := by
      rw [Nat.div_eq_iff (by positivity)]
      omega
    rw [hone] at hsum
    rw [if_pos (by omega)]
    omega

/-- **The turns of an accumulator.** Over `N` clocks with one increment the phase has moved by
`N * inc`, counted in full turns by the falling edges of the top bit. -/
theorem falls_msb_mul_add {w : ℕ} {phase : ℕ → BitVec w} {inc : BitVec w}
    (hinc : 2 * inc.toNat ≤ 2 ^ w) {N : ℕ} (hstep : ∀ k < N, phase (k + 1) = phase k + inc) :
    falls (fun k => (phase k).msb) N * 2 ^ w + (phase N).toNat
      = (phase 0).toNat + N * inc.toNat := by
  induction N with
  | zero => simp [falls]
  | succ N ih =>
      have hlast := toNat_add_of_le_half (phase N) hinc
      rw [← hstep N (by omega)] at hlast
      rw [falls_succ]
      have hprev := ih (fun k hk => hstep k (by omega))
      calc _ = falls (fun k => (phase k).msb) N * 2 ^ w + ((phase N).toNat + inc.toNat) := by
            rw [← hlast]
            ring
        _ = (phase 0).toNat + (N + 1) * inc.toNat := by
            rw [← Nat.add_assoc, hprev]
            ring

/-- The number of falling edges is the number of completed turns. -/
theorem falls_msb {w : ℕ} {phase : ℕ → BitVec w} {inc : BitVec w}
    (hinc : 2 * inc.toNat ≤ 2 ^ w) {N : ℕ} (hstep : ∀ k < N, phase (k + 1) = phase k + inc) :
    falls (fun k => (phase k).msb) N = ((phase 0).toNat + N * inc.toNat) / 2 ^ w := by
  rw [← falls_msb_mul_add hinc hstep, Nat.mul_comm,
    Nat.mul_add_div (by positivity), Nat.div_eq_of_lt (phase N).isLt, Nat.add_zero]

/-- A start phase contributes at most one turn. -/
theorem add_div_eq_or {a b p : ℕ} (ha : a < p) : (a + b) / p = b / p ∨ (a + b) / p = b / p + 1 := by
  have hlow : b / p ≤ (a + b) / p := Nat.div_le_div_right (by omega)
  have hhigh : (a + b) / p ≤ (b + p) / p := Nat.div_le_div_right (by omega)
  rw [Nat.add_div_right _ (by omega)] at hhigh
  omega

end Signal
