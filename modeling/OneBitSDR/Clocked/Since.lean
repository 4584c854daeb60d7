import Mathlib.Data.List.DropRight
import OneBitSDR.Clocked.Run

set_option autoImplicit false

/-! # The past of a stream

`Since p q n` is the past operator of temporal logic on the cycles before `n`: some cycle
satisfied `q`, and every later one satisfied `p`. A flag that one event sets and another one
clears is such a formula, read off one cycle at a time by `since_succ`. `streak x n` is the
number of cycles for which the stream `x` has had its value of cycle `n` already. The last section
is about a register that some commands set and others add to: the last one that set it decides,
together with what has been added since.
-/

namespace Clocked

/-- Some cycle before `n` satisfied `q`, and every cycle between it and `n` satisfied `p`. -/
def Since (p q : ℕ → Prop) (n : ℕ) : Prop :=
  ∃ k < n, q k ∧ ∀ j < n, k < j → p j

variable {p q : ℕ → Prop}

theorem not_since_zero : ¬ Since p q 0 := by
  rintro ⟨k, hk, -⟩
  omega

/-- One more cycle: it satisfies `q` itself, or it keeps `p`. -/
theorem since_succ (n : ℕ) : Since p q (n + 1) ↔ q n ∨ (Since p q n ∧ p n) := by
  constructor
  · rintro ⟨k, hk, hq, hp⟩
    by_cases hkn : k = n
    · left
      rw [← hkn]
      exact hq
    · right
      exact ⟨⟨k, by omega, hq, fun j hj hkj => hp j (by omega) hkj⟩, hp n (by omega) (by omega)⟩
  · rintro (hq | ⟨⟨k, hk, hq, hp⟩, hpn⟩)
    · exact ⟨n, by omega, hq, fun j hj hnj => by omega⟩
    · refine ⟨k, by omega, hq, fun j hj hkj => ?_⟩
      by_cases hjn : j = n
      · rw [hjn]
        exact hpn
      · exact hp j (by omega) hkj

/-- What happens within every `D + 1` cycles has a waiting time, which is at most `D`, falls from
cycle to cycle until it happens, and is over when it does. -/
theorem exists_wait {D : ℕ} (h : ∀ n, ∃ j, n ≤ j ∧ j ≤ n + D ∧ p j) :
    ∃ wait : ℕ → ℕ, (∀ n, wait n ≤ D) ∧ (∀ n, p n ∨ wait (n + 1) + 1 ≤ wait n) ∧
      ∀ n d, p (n + d) → wait n ≤ d := by
  classical
  have hex : ∀ n, ∃ d, p (n + d) := by
    intro n
    obtain ⟨j, hnj, -, hp⟩ := h n
    obtain ⟨d, rfl⟩ := Nat.exists_eq_add_of_le hnj
    exact ⟨d, hp⟩
  refine ⟨fun n => Nat.find (hex n), ?_, ?_, fun n d hp => Nat.find_min' (hex n) hp⟩
  · intro n
    obtain ⟨j, hnj, hjD, hp⟩ := h n
    obtain ⟨d, rfl⟩ := Nat.exists_eq_add_of_le hnj
    exact (Nat.find_min' (hex n) hp).trans (by omega)
  · intro n
    by_cases hpn : p n
    · exact Or.inl hpn
    · right
      have hfind := Nat.find_spec (hex n)
      have hpos : Nat.find (hex n) ≠ 0 := by
        intro hzero
        rw [hzero] at hfind
        exact hpn hfind
      obtain ⟨d, hd⟩ := Nat.exists_eq_succ_of_ne_zero hpos
      rw [hd, ← Nat.add_one, ← Nat.add_assoc, Nat.add_right_comm] at hfind
      have hmin := Nat.find_min' (hex (n + 1)) hfind
      show Nat.find (hex (n + 1)) + 1 ≤ Nat.find (hex n)
      omega

/-! ## Streaks -/

section Streak

variable {α : Type*} [DecidableEq α]

/-- For how many cycles before `n` the stream has had its value of cycle `n`. -/
def streak (x : ℕ → α) : ℕ → ℕ
  | 0 => 0
  | n + 1 => if x n = x (n + 1) then streak x n + 1 else 0

theorem le_streak_iff (x : ℕ → α) (j n : ℕ) :
    j ≤ streak x n ↔ j ≤ n ∧ ∀ i, n ≤ i + j → i ≤ n → x i = x n := by
  induction n generalizing j with
  | zero =>
      constructor
      · intro h
        refine ⟨h, fun i _ hi => ?_⟩
        rw [Nat.le_zero.mp hi]
      · rintro ⟨h, -⟩
        exact h
  | succ n ih =>
      unfold streak
      by_cases heq : x n = x (n + 1)
      · -- the streak goes on, so the value of the cycles before is that of cycle `n` as well
        rw [if_pos heq]
        cases j with
        | zero =>
            refine ⟨fun _ => ⟨by omega, fun i hi hin => ?_⟩, fun _ => by omega⟩
            rw [show i = n + 1 by omega]
        | succ j =>
            rw [Nat.add_le_add_iff_right, Nat.add_le_add_iff_right, ih]
            constructor
            · rintro ⟨hj, hall⟩
              refine ⟨hj, fun i hi hin => ?_⟩
              by_cases hlast : i = n + 1
              · rw [hlast]
              · rw [hall i (by omega) (by omega), heq]
            · rintro ⟨hj, hall⟩
              refine ⟨hj, fun i hi hin => ?_⟩
              rw [hall i (by omega) (by omega), heq]
      · rw [if_neg heq]
        constructor
        · intro h
          refine ⟨by omega, fun i hi hin => ?_⟩
          rw [show i = n + 1 by omega]
        · rintro ⟨hj, hall⟩
          by_contra hpos
          exact heq (hall n (by omega) (by omega))

end Streak

/-! ## Registers that are set or moved -/

section Commands

variable {A B : Type*} [AddCommMonoid A]

/-- A command sets the register, or adds something to it. -/
def setOrAdd (select : B → Option A) (move : B → A) (x : A) (b : B) : A :=
  (select b).getD (x + move b)

/-- The last value that was set, and the start value if there is none. -/
def lastSet (select : B → Option A) (x : A) (l : List B) : A := (l.filterMap select).getLast?.getD x

/-- What the commands after the last one that set the register have added. -/
def movedSince (select : B → Option A) (move : B → A) (l : List B) : A :=
  ((l.rtakeWhile (fun b => (select b).isNone)).map move).sum

/-- The register after a list of commands. -/
theorem foldl_setOrAdd (select : B → Option A) (move : B → A) (x : A) (l : List B) :
    l.foldl (setOrAdd select move) x = lastSet select x l + movedSince select move l := by
  induction l using List.reverseRecOn with
  | nil => simp [lastSet, movedSince]
  | append_singleton l b ih =>
      rw [List.foldl_append, ih, List.foldl_cons, List.foldl_nil, setOrAdd]
      unfold lastSet movedSince
      cases hb : select b with
      | none => simp [hb, List.filterMap_append, add_assoc]
      | some v => simp [hb, List.filterMap_append]

end Commands

end Clocked
