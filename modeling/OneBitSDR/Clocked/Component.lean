import OneBitSDR.Clocked.Run

set_option autoImplicit false

/-! # Components with a fixed latency

A vendor block whose inside is not part of the design is a `Component`: a state, a clock edge
and an output. All that a design relies on is `HasLatency L f`: `L` edges after an input was
presented the output is `f` of it, whatever the block held before and is given in between.
`pipeline` is a component with a given latency, and the last section gives the latency of a
shift register.
-/

namespace Clocked

/-! ## Components -/

/-- A clocked block with inputs in `In` and outputs in `Out`. -/
structure Component (In Out : Type) where
  State : Type
  step : State → In → State
  out : State → Out

/-- `L` edges after an input was presented, the output is `f` of it. -/
def Component.HasLatency {In Out : Type} (B : Component In Out) (L : ℕ) (f : In → Out) : Prop :=
  ∀ (s : B.State) (u : ℕ → In) (n : ℕ), B.out (run B.step s u (n + L)) = f (u n)

/-- One edge of `L + 1` registers in a row behind the function `f`. -/
def pipeStep {In Out : Type} {L : ℕ} (f : In → Out) (s : Fin (L + 1) → Out) (i : In) :
    Fin (L + 1) → Out :=
  fun k => if h : k.val = 0 then f i else s ⟨k.val - 1, by omega⟩

theorem pipeStep_register {In Out : Type} {L : ℕ} (f : In → Out) (s : Fin (L + 1) → Out)
    (u : ℕ → In) (n k : ℕ) (h : k < L + 1) :
    run (pipeStep f) s u (n + k + 1) ⟨k, h⟩ = f (u n) := by
  induction k with
  | zero => rw [run_succ]; rfl
  | succ k ih =>
      rw [run_succ]
      exact ih (by omega)

/-- The function `f` followed by `L + 1` registers. -/
def pipeline {In Out : Type} (L : ℕ) (f : In → Out) : Component In Out where
  State := Fin (L + 1) → Out
  step := pipeStep f
  out s := s (Fin.last L)

/-- A pipeline of `L + 1` registers has latency `L + 1`. -/
theorem pipeline_hasLatency {In Out : Type} (L : ℕ) (f : In → Out) :
    (pipeline L f).HasLatency (L + 1) f := by
  intro s u n
  exact pipeStep_register f s u n L (by omega)

/-! ## Shift registers -/

/-- A register into which one bit is shifted on every edge. -/
def shiftIn {w : ℕ} (r : BitVec w) (b : Bool) : BitVec w := r.shiftConcat b

/-- Bit `k` of a shift register is the bit presented `k + 1` edges ago. -/
theorem shiftIn_bit {w : ℕ} (r : BitVec w) (u : ℕ → Bool) (n k : ℕ) (h : k < w) :
    (run shiftIn r u (n + k + 1)).getLsbD k = u n := by
  induction k with
  | zero =>
      rw [run_succ, shiftIn, BitVec.getLsbD_shiftConcat]
      simp [h]
  | succ k ih =>
      rw [run_succ, shiftIn, BitVec.getLsbD_shiftConcat]
      simp only [h, decide_true, Bool.true_and, Nat.add_eq_zero_iff, one_ne_zero, and_false, if_false,
        Nat.add_sub_cancel]
      exact ih (by omega)

/-- What a shift register held at the start moves up one place on every edge. -/
theorem shiftIn_initial {w : ℕ} (r : BitVec w) (u : ℕ → Bool) (n k : ℕ) (h : k + n < w) :
    (run shiftIn r u n).getLsbD (k + n) = r.getLsbD k := by
  induction n with
  | zero => rfl
  | succ n ih =>
      rw [run_succ, shiftIn, BitVec.getLsbD_shiftConcat, ← Nat.add_assoc]
      simp only [show k + n + 1 < w by omega, decide_true, Bool.true_and, Nat.add_eq_zero_iff,
        one_ne_zero, and_false, if_false, Nat.add_sub_cancel]
      exact ih (by omega)

end Clocked
