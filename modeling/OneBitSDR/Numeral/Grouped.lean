import Mathlib.Data.Nat.Digits.Lemmas
import Mathlib.Tactic

set_option autoImplicit false

/-! # Numerals with a separator between groups

A numeral that is produced from the right, digit by digit, with a separator after each `g`-th one,
is `written`. A separator that ends up on the left is surplus; without it the numeral is
`grouped`. Both are lists that start with the rightmost item. The separators stand at the
positions `g`, `2 * g + 1`, …, and without them the digits are left in their order.
-/

namespace Numeral

variable {α β : Type*}

/-! ## Groups -/

/-- The items `d 0, …, d (n - 1)`, with a separator after each `g`-th. -/
def written (g : ℕ) (sep : α) (d : ℕ → α) : ℕ → List α
  | 0 => []
  | n + 1 => written g sep d n ++ d n :: if (n + 1) % g = 0 then [sep] else []

/-- The items with separators between the groups only. -/
def grouped (g : ℕ) (sep : α) (d : ℕ → α) : ℕ → List α
  | 0 => []
  | n + 1 => written g sep d n ++ [d n]

section Groups

variable {g : ℕ} {sep : α} {d : ℕ → α}

/-- A surplus separator is the only difference. -/
theorem written_succ (n : ℕ) :
    written g sep d (n + 1) = grouped g sep d (n + 1) ++ if (n + 1) % g = 0 then [sep] else [] := by
  rw [written, grouped, List.append_assoc]
  rfl

theorem length_written (n : ℕ) : (written g sep d n).length = n + n / g := by
  induction n with
  | zero => simp [written]
  | succ n ih =>
      rw [written, List.length_append, ih, List.length_cons, Nat.succ_div]
      by_cases hd : g ∣ n + 1
      · rw [if_pos (Nat.mod_eq_zero_of_dvd hd), if_pos hd, List.length_singleton]
        omega
      · rw [if_neg (fun h => hd (Nat.dvd_of_mod_eq_zero h)), if_neg hd, List.length_nil]
        omega

theorem map_written (f : α → β) (n : ℕ) :
    (written g sep d n).map f = written g (f sep) (fun k => f (d k)) n := by
  induction n with
  | zero => rfl
  | succ n ih =>
      rw [written, written, List.map_append, ih, List.map_cons]
      split_ifs <;> rfl

theorem map_grouped (f : α → β) (n : ℕ) :
    (grouped g sep d n).map f = grouped g (f sep) (fun k => f (d k)) n := by
  cases n with
  | zero => rfl
  | succ n => rw [grouped, grouped, List.map_append, map_written, List.map_singleton]

/-! ### Where the separators stand -/

/-- The position of digit `n` within its group. -/
theorem position_mod (hg : 0 < g) (n : ℕ) : (n + n / g) % (g + 1) = n % g := by
  have hlt : n % g < g := Nat.mod_lt n hg
  have hsplit : n + n / g = (g + 1) * (n / g) + n % g := by
    calc n + n / g = g * (n / g) + n % g + n / g := by rw [Nat.div_add_mod]
      _ = (g + 1) * (n / g) + n % g := by ring
  rw [hsplit, Nat.mul_add_mod]
  exact Nat.mod_eq_of_lt (by omega)

/-- The position after the last digit of a group. -/
theorem position_succ_mod (hg : 0 < g) {n : ℕ} (h : (n + 1) % g = 0) :
    (n + n / g + 1) % (g + 1) = g := by
  obtain ⟨q, hq⟩ := Nat.dvd_of_mod_eq_zero h
  obtain ⟨m, rfl⟩ : ∃ m, q = m + 1 := by
    refine Nat.exists_eq_add_of_le' (Nat.pos_of_ne_zero ?_)
    rintro rfl
    cases hq
  rw [Nat.mul_succ] at hq
  have hdiv : n / g = m := by
    rw [show n = g * m + (g - 1) by omega, Nat.mul_add_div hg, Nat.div_eq_of_lt (by omega),
      Nat.add_zero]
  calc (n + n / g + 1) % (g + 1) = ((g + 1) * m + g) % (g + 1) := by
        rw [hdiv, show n + m + 1 = n + 1 + m by omega, hq]
        ring_nf
    _ = g := by rw [Nat.mul_add_mod, Nat.mod_eq_of_lt (by omega)]

theorem getElem?_written_eq_sep_iff (hg : 0 < g) (hd : ∀ k, d k ≠ sep) (n p : ℕ) :
    (written g sep d n)[p]? = some sep ↔ p < (written g sep d n).length ∧ p % (g + 1) = g := by
  induction n with
  | zero => simp [written]
  | succ n ih =>
      have hlen : (written g sep d n).length = n + n / g := length_written n
      rw [written, List.getElem?_append, List.length_append, List.length_cons]
      by_cases hold : p < (written g sep d n).length
      · rw [if_pos hold, ih]
        exact and_congr_left fun _ => by omega
      · rw [if_neg hold]
        obtain ⟨j, rfl⟩ := Nat.exists_eq_add_of_le (Nat.le_of_not_lt hold)
        rw [Nat.add_sub_cancel_left]
        cases j with
        | zero =>
            -- the digit
            have hmod : ¬ (written g sep d n).length % (g + 1) = g := by
              rw [hlen, position_mod hg]
              exact Nat.ne_of_lt (Nat.mod_lt n hg)
            simp [hd n, hmod]
        | succ j =>
            by_cases hend : (n + 1) % g = 0
            · have hmod := position_succ_mod hg hend
              rw [← hlen] at hmod
              rw [if_pos hend]
              cases j with
              | zero => simp [hmod]
              | succ j => simp
            · rw [if_neg hend]
              simp

theorem getElem?_grouped_eq_sep_iff (hg : 0 < g) (hd : ∀ k, d k ≠ sep) (n p : ℕ) :
    (grouped g sep d n)[p]? = some sep ↔ p < (grouped g sep d n).length ∧ p % (g + 1) = g := by
  cases n with
  | zero => simp [grouped]
  | succ n =>
      by_cases hp : p < (grouped g sep d (n + 1)).length
      · -- up to its end the grouped numeral is the written one
        have hsame : (written g sep d (n + 1))[p]? = (grouped g sep d (n + 1))[p]? := by
          rw [written_succ, List.getElem?_append_left hp]
        rw [← hsame, getElem?_written_eq_sep_iff hg hd, written_succ, List.length_append]
        exact and_congr_left fun _ => by omega
      · simp [hp]

/-! ### What is left without the separators -/

theorem mem_grouped {n : ℕ} {a : α} (h : a ∈ grouped g sep d n) : a = sep ∨ ∃ k < n, a = d k := by
  have hwritten : ∀ m, a ∈ written g sep d m → a = sep ∨ ∃ k < m, a = d k := by
    intro m
    induction m with
    | zero =>
        intro hm
        cases hm
    | succ m ih =>
        intro hm
        rw [written, List.mem_append, List.mem_cons] at hm
        rcases hm with hold | rfl | hend
        · rcases ih hold with hsep | ⟨k, hk, hdigit⟩
          · exact Or.inl hsep
          · exact Or.inr ⟨k, by omega, hdigit⟩
        · exact Or.inr ⟨m, by omega, rfl⟩
        · left
          split_ifs at hend with hg
          · exact List.mem_singleton.mp hend
          · cases hend
  cases n with
  | zero => cases h
  | succ n =>
      refine hwritten (n + 1) ?_
      rw [written_succ]
      exact List.mem_append_left _ h

theorem filter_written [DecidableEq α] (hd : ∀ k, d k ≠ sep) (n : ℕ) :
    (written g sep d n).filter (· ≠ sep) = (List.range n).map d := by
  induction n with
  | zero => rfl
  | succ n ih =>
      rw [written, List.filter_append, ih, List.range_succ, List.map_append]
      split_ifs <;> simp [hd n]

theorem filter_grouped [DecidableEq α] (hd : ∀ k, d k ≠ sep) (n : ℕ) :
    (grouped g sep d n).filter (· ≠ sep) = (List.range n).map d := by
  cases n with
  | zero => rfl
  | succ n =>
      rw [grouped, List.filter_append, filter_written hd, List.range_succ, List.map_append]
      simp [hd n]

end Groups

/-! ## Digits -/

/-- The digits of a number by division. -/
theorem map_digit_range {b : ℕ} (hb : 2 ≤ b) (x : ℕ) :
    (List.range (b.digits x).length).map (fun k => x / b ^ k % b) = b.digits x := by
  apply List.ext_getElem
  · simp
  · intro k h1 h2
    rw [List.getElem_map, List.getElem_range, ← Nat.getD_digits x k hb,
      List.getD_eq_getElem?_getD, List.getElem?_eq_getElem h2, Option.getD_some]

/-- The decimal text of a number, from its digits. -/
theorem toDigits_eq_digits {b : ℕ} (hb : 1 < b) {x : ℕ} (hx : 0 < x) :
    Nat.toDigits b x = ((b.digits x).map Nat.digitChar).reverse := by
  induction x using Nat.strong_induction_on with
  | _ x ih =>
      rw [Nat.digits_def' hb hx, List.map_cons, List.reverse_cons]
      by_cases hsmall : x < b
      · rw [Nat.toDigits_of_lt_base hsmall, Nat.div_eq_of_lt hsmall, Nat.mod_eq_of_lt hsmall]
        simp
      · have hle : b ≤ x := Nat.le_of_not_lt hsmall
        rw [Nat.toDigits_of_base_le hb hle, ih (x / b) (Nat.div_lt_self hx hb)
          (Nat.div_pos hle (by omega))]

end Numeral
