import OneBitSDR.Clocked.Run
import OneBitSDR.Signal.Shift

set_option autoImplicit false

/-! # Integrator and comb cascades

The two halves of a decimating integrator-comb filter as synchronous circuits over an additive
commutative group: `S` registered accumulators in a chain, and `S` registered differences at
distance `M` in a chain. The registers start with arbitrary contents. `cascade_response` is the
law of the whole filter: once the combs have run for `S * (M + 1)` edges their last node is an
exact weighted sum of inputs, in which the initial contents do not occur. The group may be the
integers modulo a power of two, so it makes no difference whether the accumulators overflow.
-/

namespace Signal

open Polynomial Finset Clocked

variable {A : Type*} {S M : ℕ}

/-! ## The circuits -/

/-- What stage `i` of a chain reads: the input of the chain for the first stage, the register
of the stage before it for the others. -/
def chainIn (x : A) (r : Fin S → A) (i : Fin S) : A :=
  if i.val = 0 then x else r ⟨i.val - 1, by omega⟩

theorem chainIn_zero (x : A) (r : Fin S → A) (h : 0 < S) : chainIn x r ⟨0, h⟩ = x := rfl

theorem chainIn_succ (x : A) (r : Fin S → A) (i : ℕ) (h : i + 1 < S) :
    chainIn x r ⟨i + 1, h⟩ = r ⟨i, by omega⟩ := rfl

variable [AddCommGroup A]

/-- One edge of the accumulators. -/
def integrate (r : Fin S → A) (x : A) : Fin S → A := fun i => r i + chainIn x r i

/-- The registers of the combs: `M` delays and one difference for each stage. -/
structure Combs (A : Type*) (S M : ℕ) where
  delay : Fin M → Fin S → A
  node : Fin S → A

/-- One edge of the combs. -/
def Combs.step (hM : 0 < M) (c : Combs A S M) (x : A) : Combs A S M where
  delay j i := if j.val = 0 then chainIn x c.node i else c.delay ⟨j.val - 1, by omega⟩ i
  node i := chainIn x c.node i - c.delay ⟨M - 1, by omega⟩ i

/-! ## The accumulators -/

/-- An accumulator is undone by the difference at distance one, whatever it started with. -/
theorem diff_accumulator {y x : ℕ → A} (h : ∀ n, y (n + 1) = y n + x n) :
    (shift A - 1) y = x := by
  funext n
  show y (n + 1) - y n = x n
  rw [h n]
  abel

/-- `S`-fold differencing undoes the chain of `S` accumulators. -/
theorem diff_pow_integrate (r : Fin S → A) (xs : ℕ → A) (i : ℕ) (h : i < S) :
    ((shift A - 1) ^ (i + 1)) (fun n => run integrate r xs n ⟨i, h⟩) = xs := by
  induction i with
  | zero =>
      rw [zero_add, pow_one]
      exact diff_accumulator fun n => by rw [run_succ, integrate, chainIn_zero]
  | succ i ih =>
      -- one difference undoes the last accumulator, the others the chain before it
      have hacc : (shift A - 1) (fun n => run integrate r xs n ⟨i + 1, h⟩)
          = fun n => run integrate r xs n ⟨i, by omega⟩ :=
        diff_accumulator fun n => by rw [run_succ, integrate, chainIn_succ]
      rw [pow_succ, Module.End.mul_apply, hacc]
      exact ih (by omega)

/-- Cleared accumulators that read a stream one clock late, after a zero, are one clock
behind. -/
theorem integrate_registered (xs : ℕ → A) (n : ℕ) :
    run integrate (fun _ : Fin S => (0 : A)) (registered 0 xs) (n + 1)
      = run integrate (fun _ : Fin S => (0 : A)) xs n := by
  induction n with
  | zero =>
      -- the zero that comes first adds nothing to cleared registers
      funext i
      rw [run_succ, run_zero, run_zero, integrate, chainIn]
      simp [registered]
  | succ n ih => rw [run_succ, ih, run_succ, registered_succ]

/-! ## The combs -/

/-- A value travels down the delay line of its stage one place an edge. -/
theorem combs_delay (hM : 0 < M) (c : Combs A S M) (v : ℕ → A) (i : Fin S) (q j : ℕ) (h : j < M) :
    (run (Combs.step hM) c v (q + j + 1)).delay ⟨j, h⟩ i
      = chainIn (v q) (run (Combs.step hM) c v q).node i := by
  induction j with
  | zero => rw [Nat.add_zero, run_succ]; rfl
  | succ j ih =>
      rw [run_succ]
      exact ih (by omega)

/-- A comb is the difference at distance `M` of what it reads, one edge late. -/
theorem combs_node (hM : 0 < M) (c : Combs A S M) (v : ℕ → A) (i : Fin S) (q : ℕ) :
    (run (Combs.step hM) c v (q + (M + 1))).node i
      = chainIn (v (q + M)) (run (Combs.step hM) c v (q + M)).node i
        - chainIn (v q) (run (Combs.step hM) c v q).node i := by
  have hd := combs_delay hM c v i q (M - 1) (by omega)
  rw [show q + (M - 1) + 1 = q + M by omega] at hd
  rw [← Nat.add_assoc, run_succ, ← hd]
  rfl

theorem comm_shift_pow_diff (a M : ℕ) : Commute (shift A ^ a) (shift A ^ M - 1) :=
  ((Commute.refl (shift A)).pow_pow a M).sub_right (Commute.one_right _)

/-- The chain of combs takes the `S`-fold difference at distance `M`, `S * (M + 1)` edges
late. -/
theorem shift_pow_combs (hM : 0 < M) (c : Combs A S M) (v : ℕ → A) (i : ℕ) (h : i < S) :
    (shift A ^ ((i + 1) * (M + 1))) (fun q => (run (Combs.step hM) c v q).node ⟨i, h⟩)
      = ((shift A ^ M - 1) ^ (i + 1)) v := by
  induction i with
  | zero =>
      funext q
      rw [zero_add, one_mul, pow_one, shift_pow_apply, combs_node, diff_apply, chainIn_zero,
        chainIn_zero]
  | succ i ih =>
      -- the new stage differences the node before it, and is one register later
      have hstage : (shift A ^ (M + 1)) (fun q => (run (Combs.step hM) c v q).node ⟨i + 1, h⟩)
          = (shift A ^ M - 1) (fun q => (run (Combs.step hM) c v q).node ⟨i, by omega⟩) := by
        funext q
        rw [shift_pow_apply, combs_node, chainIn_succ, chainIn_succ, diff_apply]
      calc (shift A ^ ((i + 1 + 1) * (M + 1)))
            (fun q => (run (Combs.step hM) c v q).node ⟨i + 1, h⟩)
          = (shift A ^ ((i + 1) * (M + 1)))
            ((shift A ^ (M + 1)) (fun q => (run (Combs.step hM) c v q).node ⟨i + 1, h⟩)) := by
            rw [show (i + 1 + 1) * (M + 1) = (i + 1) * (M + 1) + (M + 1) by ring, pow_add,
              Module.End.mul_apply]
        _ = (shift A ^ ((i + 1) * (M + 1)) * (shift A ^ M - 1))
            (fun q => (run (Combs.step hM) c v q).node ⟨i, by omega⟩) := by
            rw [hstage, Module.End.mul_apply]
        _ = (shift A ^ M - 1) (((shift A ^ M - 1) ^ (i + 1)) v) := by
            rw [(comm_shift_pow_diff _ M).eq, Module.End.mul_apply, ih (by omega)]
        _ = ((shift A ^ M - 1) ^ (i + 1 + 1)) v := by
            rw [← Module.End.mul_apply, ← pow_succ']

/-! ## The filter -/

/-- Differencing `S` times at distance `K` what `S` accumulators made of `xs` leaves the
`S`-fold window sum of `xs`. -/
theorem diff_pow_integrators (r : Fin S → A) (xs : ℕ → A) (hS : 0 < S) (K : ℕ) :
    ((shift A ^ K - 1) ^ S) (fun n => run integrate r xs n ⟨S - 1, by omega⟩)
      = aeval (shift A) (window K ^ S) xs := by
  have hgeom : shift A ^ K - 1 = aeval (shift A) (window K) * (shift A - 1) := by
    rw [window, map_sum]
    simp only [map_pow, aeval_X]
    rw [geom_sum_mul]
  have hcomm : Commute (aeval (shift A) (window K)) (shift A - 1) := by
    have hX := (Commute.all (window K) X).map (aeval (shift A))
    rw [aeval_X] at hX
    exact hX.sub_right (Commute.one_right _)
  have hI := diff_pow_integrate r xs (S - 1) (by omega)
  rw [show S - 1 + 1 = S by omega] at hI
  calc ((shift A ^ K - 1) ^ S) (fun n => run integrate r xs n ⟨S - 1, by omega⟩)
      = (aeval (shift A) (window K) ^ S)
          (((shift A - 1) ^ S) (fun n => run integrate r xs n ⟨S - 1, by omega⟩)) := by
        rw [hgeom, hcomm.mul_pow, Module.End.mul_apply]
    _ = (aeval (shift A) (window K) ^ S) xs := by rw [hI]
    _ = aeval (shift A) (window K ^ S) xs := by rw [map_pow]

/-- **The response of the filter.** Combs that read every `R`-th value of the last accumulator,
from its value after `o` samples on, hold after `q + S * (M + 1)` edges the window sum of the
samples from `q * R + o` on, with the coefficients of `((1 - X^(RM)) / (1 - X))^S`. -/
theorem cascade_response (hS : 0 < S) (hM : 0 < M) (R o : ℕ) (hR : 0 < R) (r : Fin S → A)
    (c : Combs A S M) (xs : ℕ → A) (q : ℕ) :
    (run (Combs.step hM) c (fun k => run integrate r xs (k * R + o) ⟨S - 1, by omega⟩)
        (q + S * (M + 1))).node ⟨S - 1, by omega⟩
      = ∑ j ∈ range (S * (R * M - 1) + 1), windowCoeff (R * M) S j • xs (q * R + o + j) := by
  have hRM : 1 ≤ R * M := Nat.mul_pos hR hM
  set v : ℕ → A := decimate A R o (fun n => run integrate r xs n ⟨S - 1, by omega⟩) with hv
  -- the combs difference the decimated stream, which is the decimated differenced stream
  have hc := shift_pow_combs hM c v (S - 1) (by omega)
  rw [show S - 1 + 1 = S by omega, hv, diff_pow_decimate, diff_pow_integrators r xs hS] at hc
  have hq := congrFun hc q
  rw [shift_pow_apply, decimate_apply, aeval_shift_apply, window_pow_natDegree hRM] at hq
  exact hq

/-- The response read backwards from the newest sample it contains. -/
theorem response_reflect (K : ℕ) (hK : 1 ≤ K) (f : ℕ → A) :
    ∑ j ∈ range (S * (K - 1) + 1), windowCoeff K S j • f j
      = ∑ j ∈ range (S * (K - 1) + 1), windowCoeff K S j • f (S * (K - 1) - j) := by
  rw [← sum_range_reflect]
  refine sum_congr rfl fun j hj => ?_
  have hj' : j ≤ S * (K - 1) := by have := mem_range.mp hj; omega
  rw [show S * (K - 1) + 1 - 1 - j = S * (K - 1) - j by omega, windowCoeff_symm hK hj']

end Signal
