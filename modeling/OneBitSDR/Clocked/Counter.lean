import OneBitSDR.Clocked.Run

set_option autoImplicit false

/-! # Counters and divided clocks

A free-running counter holds the number of edges modulo a power of two, a counter that returns
to zero after `R - 1` holds it modulo `R`. A register clocked by a bit of a counter moves on one
edge in `p`, on those whose number is `r` modulo `p`: `ticks p r n` counts them, and a run of such
a circuit is a run over the ticks.
-/

namespace Clocked

variable {S I α : Type*}

/-! ## Counters -/

section FreeRunning

variable {w : ℕ} {step : S → I → S} (counter : S → BitVec w) {s : S} {u : ℕ → I} {n : ℕ}

/-- A register that is incremented on every edge of the run. -/
theorem run_freeRunning_of
    (h : ∀ k < n, counter (step (run step s u k) (u k)) = counter (run step s u k) + 1) :
    counter (run step s u n) = counter s + BitVec.ofNat w n := by
  induction n with
  | zero => simp
  | succ n ih =>
      rw [run_succ, h n (by omega), ih (fun k hk => h k (by omega)), BitVec.ofNat_add,
        BitVec.add_assoc]
      rfl

/-- From zero it counts the edges, as long as they fit. -/
theorem toNat_freeRunning (h0 : counter s = 0) (hn : n < 2 ^ w)
    (h : ∀ k < n, counter (step (run step s u k) (u k)) = counter (run step s u k) + 1) :
    (counter (run step s u n)).toNat = n := by
  rw [run_freeRunning_of counter h, h0]
  simp [Nat.mod_eq_of_lt hn]

end FreeRunning

/-- A register that every edge increments. -/
theorem run_freeRunning {w : ℕ} {step : S → I → S} (counter : S → BitVec w)
    (h : ∀ s i, counter (step s i) = counter s + 1) (s : S) (u : ℕ → I) (n : ℕ) :
    counter (run step s u n) = counter s + BitVec.ofNat w n :=
  run_freeRunning_of counter (fun k _ => h (run step s u k) (u k))

/-- The next value of a counter modulo `R`. -/
theorem succ_mod {a R : ℕ} (hR : 2 ≤ R) :
    (a + 1) % R = if a % R + 1 = R then 0 else a % R + 1 := by
  have hlt : a % R < R := Nat.mod_lt _ (by omega)
  rw [Nat.add_mod, Nat.mod_eq_of_lt (show 1 < R by omega)]
  split
  next h => rw [h, Nat.mod_self]
  next h => exact Nat.mod_eq_of_lt (by omega)

/-- The terminal count is reached when the next number of edges is a multiple of `R`. -/
theorem dvd_succ_iff {a R : ℕ} (hR : 2 ≤ R) : R ∣ a + 1 ↔ a % R + 1 = R := by
  rw [Nat.dvd_iff_mod_eq_zero, succ_mod hR]
  split
  next h => exact ⟨fun _ => h, fun _ => rfl⟩
  next h => exact ⟨fun h' => by omega, fun h' => absurd h' h⟩

/-- The terminal count of a counter of `⌈log₂ R⌉` bits is `R - 1`. For a power of two `R` itself
does not fit, and the difference wraps around to the largest count. -/
theorem toNat_terminal {R : ℕ} (hR : 2 ≤ R) :
    (BitVec.ofNat (Nat.clog 2 R) R - BitVec.ofNat (Nat.clog 2 R) 1).toNat = R - 1 := by
  have hle : R ≤ 2 ^ Nat.clog 2 R := Nat.le_pow_clog (by omega) R
  have hone : 1 % 2 ^ Nat.clog 2 R = 1 := Nat.mod_eq_of_lt (by omega)
  rw [BitVec.toNat_sub, BitVec.toNat_ofNat, BitVec.toNat_ofNat, hone]
  rcases hle.lt_or_eq with hlt | heq
  · rw [Nat.mod_eq_of_lt hlt, show 2 ^ Nat.clog 2 R - 1 + R = R - 1 + 2 ^ Nat.clog 2 R by omega,
      Nat.add_mod_right, Nat.mod_eq_of_lt (by omega)]
  · -- a power of two is truncated to zero
    rw [← heq, Nat.mod_self, Nat.add_zero, Nat.mod_eq_of_lt (by omega)]

/-! ## Counts of a period -/

/-- Counting a predicate that holds up to `m` and no further. -/
theorem count_of_iff_le {p : ℕ → Prop} [DecidablePred p] {m n : ℕ} (hm : m < n)
    (h : ∀ k < n, p k ↔ k ≤ m) : Nat.count p n = m + 1 := by
  rcases Nat.exists_eq_add_of_lt hm with ⟨j, rfl⟩
  rw [show m + j + 1 = m + 1 + j by omega] at h ⊢
  have hlow : Nat.count p (m + 1) = m + 1 :=
    Nat.count_of_forall (fun k hk => (h k (by omega)).mpr (by omega))
  have hhigh : Nat.count (fun k => p (m + 1 + k)) j = 0 :=
    Nat.count_of_forall_not (fun k hk hp => absurd ((h _ (by omega)).mp hp) (by omega))
  calc Nat.count p (m + 1 + j) = Nat.count p (m + 1) + Nat.count (fun k => p (m + 1 + k)) j :=
        Nat.count_add p (m + 1) j
    _ = m + 1 := by rw [hlow, hhigh, Nat.add_zero]

/-- Counting a predicate that holds from `m + 1` on. -/
theorem count_of_iff_lt {p : ℕ → Prop} [DecidablePred p] {m n : ℕ} (hm : m < n)
    (h : ∀ k < n, p k ↔ m < k) : Nat.count p n = n - 1 - m := by
  rcases Nat.exists_eq_add_of_lt hm with ⟨j, rfl⟩
  rw [show m + j + 1 = m + 1 + j by omega] at h ⊢
  have hlow : Nat.count p (m + 1) = 0 :=
    Nat.count_of_forall_not (fun k hk hp => absurd ((h k (by omega)).mp hp) (by omega))
  have hhigh : Nat.count (fun k => p (m + 1 + k)) j = j :=
    Nat.count_of_forall (fun k hk => (h _ (by omega)).mpr (by omega))
  calc Nat.count p (m + 1 + j) = Nat.count p (m + 1) + Nat.count (fun k => p (m + 1 + k)) j :=
        Nat.count_add p (m + 1) j
    _ = m + 1 + j - 1 - m := by rw [hlow, hhigh]; omega

/-! ## Divided clocks -/

/-- The number of edges before `n` that are `r` modulo `p`. -/
def ticks (p r n : ℕ) : ℕ := (n + (p - 1 - r)) / p

theorem ticks_eq {p r n : ℕ} (h : n % p = r) (hr : r < p) : ticks p r n = n / p := by
  have hdiv := Nat.div_add_mod n p
  rw [h] at hdiv
  calc ticks p r n = (p - 1 + p * (n / p)) / p := by
        rw [ticks, show n + (p - 1 - r) = p - 1 + p * (n / p) by omega]
    _ = (p - 1) / p + n / p := Nat.add_mul_div_left _ _ (by omega)
    _ = n / p := by rw [Nat.div_eq_of_lt (by omega), Nat.zero_add]

theorem ticks_succ {p r n : ℕ} (hr : r < p) :
    ticks p r (n + 1) = if n % p = r then ticks p r n + 1 else ticks p r n := by
  unfold ticks
  rw [show n + 1 + (p - 1 - r) = n + (p - 1 - r) + 1 by omega, Nat.succ_div]
  have hiff : p ∣ n + (p - 1 - r) + 1 ↔ n % p = r := by
    have hdiv := Nat.div_add_mod n p
    have hmod := Nat.mod_lt n (show 0 < p by omega)
    rw [show n + (p - 1 - r) + 1 = p * (n / p) + (n % p + (p - r)) by omega,
      Nat.dvd_add_right (Nat.dvd_mul_right p _)]
    constructor
    · rintro ⟨c, hc⟩
      -- the sum lies strictly between `0` and `2 p`
      have hpos : 0 < c := Nat.pos_of_mul_pos_left (show 0 < p * c by omega)
      have hlt : c < 2 := Nat.lt_of_mul_lt_mul_left (show p * c < p * 2 by omega)
      rw [show c = 1 by omega, Nat.mul_one] at hc
      omega
    · intro h
      exact ⟨1, by omega⟩
  by_cases h : n % p = r
  · rw [if_pos (hiff.mpr h), if_pos h]
  · rw [if_neg (fun hd => h (hiff.mp hd)), if_neg h, Nat.add_zero]

/-- A circuit with a divided clock runs on the inputs of its own edges. -/
theorem run_divided {p r : ℕ} (hr : r < p) (step : S → I → S) (s : S) (u : ℕ → I) (n : ℕ) :
    run (gated step) s (fun k => if k % p = r then some (u k) else none) n
      = run step s (fun q => u (p * q + r)) (ticks p r n) := by
  induction n with
  | zero => rw [ticks, Nat.zero_add, Nat.div_eq_of_lt (by omega)]; rfl
  | succ n ih =>
      rw [run_succ, ih, ticks_succ hr]
      by_cases h : n % p = r
      · -- the tick reads the input of its own edge
        have hn : p * ticks p r n + r = n := by
          rw [ticks_eq h hr]
          have := Nat.div_add_mod n p
          omega
        rw [if_pos h, if_pos h, run_succ, hn]
        rfl
      · rw [if_neg h, if_neg h]
        rfl

/-- The events of a signal that speaks on the edges of a divided clock only. -/
theorem events_divided {p r : ℕ} (hr : r < p) (e : ℕ → Option α) (n : ℕ) :
    events (fun k => if k % p = r then e (k / p) else none) n = events e (ticks p r n) := by
  induction n with
  | zero => rw [ticks, Nat.zero_add, Nat.div_eq_of_lt (by omega)]; rfl
  | succ n ih =>
      rw [events_succ, ih, ticks_succ hr]
      by_cases h : n % p = r
      · rw [if_pos h, if_pos h, events_succ, ticks_eq h hr]
      · rw [if_neg h, if_neg h]
        simp

end Clocked
