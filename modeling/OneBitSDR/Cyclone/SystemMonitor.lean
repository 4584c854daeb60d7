import OneBitSDR.Clocked.Component

set_option autoImplicit false

/-! # `system_monitor.sv`: reset and restart of a PLL

A 16-bit counter gives the PLL time to lock. At the terminal count a PLL that is not locked is
reset for one clock and the count starts again; a locked one keeps the counter at its end.
`pll_areset_flop` is the reset of the system, released while the counter is at its end.

The release does not look at the lock: at the terminal count the flop is cleared on the very
edge that finds the PLL unlocked and starts its reset. So the system stays in reset while the
PLL is unlocked only for a PLL that is locked from the first terminal count on, for good.

The restarts themselves are regular for any lock: one clock of reset, then a full count.
-/

namespace OneBitSDR

open Clocked

/-- The registers of `system_monitor` in the domain of `clock`. -/
structure SystemMonitor where
  counter : BitVec 16
  pll_locked_meta : BitVec 3
  pll_areset : Bool
  pll_areset_flop : Bool

namespace SystemMonitor

/-- `&counter`. -/
def terminal (s : SystemMonitor) : Bool := s.counter == BitVec.allOnes 16

/-- `pll_locked_meta[2]`. -/
def locked (s : SystemMonitor) : Bool := s.pll_locked_meta.getLsbD 2

/-- One rising edge of `clock`. -/
def step (s : SystemMonitor) (pll_locked : Bool) : SystemMonitor where
  counter :=
    if s.terminal then (if !s.locked then 0 else s.counter)
    else s.counter + 1
  pll_locked_meta := shiftIn s.pll_locked_meta pll_locked
  pll_areset :=
    if s.terminal then (if !s.locked then true else false)
    else false
  -- both operands are those of before the edge: at the terminal count `pll_areset` is still low
  pll_areset_flop := s.pll_areset || !s.terminal

/-- The initial value of `counter`; the other registers have none. -/
def PowerUp (s : SystemMonitor) : Prop := s.counter = 0

def poweredUp : SystemMonitor where
  counter := 0
  pll_locked_meta := 0
  pll_areset := false
  pll_areset_flop := true

/-! ## The synchronous resets -/

/-- One `sync_reset_gen` block, in the domain of its PLL clock. -/
structure SyncReset where
  sreset_meta : BitVec 3
  pll_sreset : Bool

/-- One rising edge of the PLL clock. -/
def SyncReset.step (s : SyncReset) (pll_areset_flop : Bool) : SyncReset where
  sreset_meta := shiftIn s.sreset_meta pll_areset_flop
  pll_sreset := s.sreset_meta.getLsbD 2

/-- The synchronous reset is the flop as it was sampled four edges ago. -/
theorem SyncReset.pll_sreset_sampled (s : SyncReset) (flop : ℕ → Bool) (n : ℕ) :
    (run SyncReset.step s flop (n + 4)).pll_sreset = flop n := by
  have hmeta : (run SyncReset.step s flop (n + 3)).sreset_meta
      = run shiftIn s.sreset_meta flop (n + 3) :=
    run_proj SyncReset.sreset_meta (fun _ b => b) (fun _ _ => rfl) s flop (n + 3)
  rw [run_succ]
  show (run SyncReset.step s flop (n + 3)).sreset_meta.getLsbD 2 = flop n
  rw [hmeta]
  exact shiftIn_bit s.sreset_meta flop n 2 (by decide)

/-! ## The counter -/

section Run

variable (s : SystemMonitor) (pll_locked : ℕ → Bool)

/-- The lock bit the counter looks at is the lock of three clocks ago. -/
theorem locked_sampled (n : ℕ) : (run step s pll_locked (n + 3)).locked = pll_locked n := by
  have hmeta : (run step s pll_locked (n + 3)).pll_locked_meta
      = run shiftIn s.pll_locked_meta pll_locked (n + 3) :=
    run_proj SystemMonitor.pll_locked_meta (fun _ b => b) (fun _ _ => rfl) s pll_locked (n + 3)
  unfold locked
  rw [hmeta]
  exact shiftIn_bit s.pll_locked_meta pll_locked n 2 (by decide)

theorem step_areset_iff (s : SystemMonitor) (b : Bool) :
    (step s b).pll_areset = true ↔ s.terminal = true ∧ s.locked = false := by
  cases ht : s.terminal <;> cases hl : s.locked <;> simp [step, ht, hl]

theorem terminal_iff (t : SystemMonitor) : t.terminal = true ↔ t.counter.toNat = 65535 := by
  unfold terminal
  rw [beq_iff_eq, ← BitVec.toNat_inj]
  rfl

/-- A reset of the PLL starts the count. -/
theorem counter_of_areset (h0 : PowerUp s) (n : ℕ)
    (h : (run step s pll_locked n).pll_areset = true) :
    (run step s pll_locked n).counter = 0 := by
  cases n with
  | zero => exact h0
  | succ n =>
      rw [run_succ] at h ⊢
      -- the branch that raises `pll_areset` clears the counter
      obtain ⟨ht, hl⟩ := (step_areset_iff _ _).mp h
      simp [step, ht, hl]

/-- A PLL is not reset at the terminal count. -/
theorem not_terminal_of_areset (h0 : PowerUp s) (n : ℕ)
    (h : (run step s pll_locked n).pll_areset = true) :
    (run step s pll_locked n).terminal = false := by
  unfold terminal
  rw [counter_of_areset s pll_locked h0 n h]
  rfl

/-- The flop is released exactly by the edges at the terminal count. -/
theorem flop_released_iff (h0 : PowerUp s) (n : ℕ) :
    (run step s pll_locked (n + 1)).pll_areset_flop = false
      ↔ (run step s pll_locked n).terminal = true := by
  rw [run_succ]
  show ((run step s pll_locked n).pll_areset || !(run step s pll_locked n).terminal) = false ↔ _
  rw [Bool.or_eq_false_iff, Bool.not_eq_false']
  constructor
  · rintro ⟨-, ht⟩
    exact ht
  · intro ht
    refine ⟨?_, ht⟩
    by_contra hcon
    rw [Bool.not_eq_false] at hcon
    rw [not_terminal_of_areset s pll_locked h0 n hcon] at ht
    cases ht

/-- Before its end the counter counts. -/
theorem toNat_step_counter {t : SystemMonitor} (h : t.counter.toNat < 65535) (b : Bool) :
    (step t b).counter.toNat = t.counter.toNat + 1 := by
  have ht : ¬ t.terminal = true := by
    rw [terminal_iff]
    omega
  simp only [step, ht, Bool.false_eq_true, if_false]
  rw [BitVec.toNat_add, show (1 : BitVec 16).toNat = 1 from rfl]
  exact Nat.mod_eq_of_lt (by omega)

/-- As long as every terminal count has found the PLL locked, the counter has never been
restarted. -/
theorem counter_of_locked (h0 : PowerUp s) (n : ℕ)
    (hl : ∀ k < n, (run step s pll_locked k).terminal = true →
      (run step s pll_locked k).locked = true) :
    (run step s pll_locked n).counter.toNat = min n 65535 := by
  induction n with
  | zero =>
      rw [run_zero, h0]
      rfl
  | succ n ih =>
      have hcount := ih (fun k hk => hl k (by omega))
      rw [run_succ]
      by_cases ht : (run step s pll_locked n).terminal = true
      · -- the counter stays at its end
        have hlocked := hl n (by omega) ht
        have hend := (terminal_iff _).mp ht
        simp only [step, ht, hlocked, if_true, Bool.not_true, Bool.false_eq_true, if_false]
        omega
      · rw [terminal_iff] at ht
        rw [toNat_step_counter (by omega), hcount]
        omega

end Run

/-! ## Restarts -/

/-- Before the terminal count the lock plays no part. -/
theorem counter_from_zero {s : SystemMonitor} (h0 : s.counter = 0) (pll_locked : ℕ → Bool) {k : ℕ}
    (hk : k ≤ 65535) : (run step s pll_locked k).counter.toNat = k := by
  induction k with
  | zero =>
      rw [run_zero, h0]
      rfl
  | succ k ih =>
      have hcount := ih (by omega)
      rw [run_succ, toNat_step_counter (by omega), hcount]

theorem step_terminal {s : SystemMonitor} (b : Bool) (h : s.terminal = true) :
    (step s b).terminal = s.locked := by
  cases hl : s.locked with
  | true =>
      -- the counter stays at its end
      have hcounter : (step s b).counter = s.counter := by simp [step, h, hl]
      rw [← h]
      unfold terminal
      rw [hcounter]
  | false =>
      have hcounter : (step s b).counter = 0 := by simp [step, h, hl]
      unfold terminal
      rw [hcounter]
      rfl

section Restarts

variable {s : SystemMonitor} (h0 : PowerUp s) (pll_locked : ℕ → Bool)

include h0

/-- For 65536 cycles the counter counts from the reset. -/
theorem counter_after_areset {p k : ℕ} (h : (run step s pll_locked p).pll_areset = true)
    (hk : k ≤ 65535) : (run step s pll_locked (p + k)).counter.toNat = k := by
  rw [run_add]
  exact counter_from_zero (counter_of_areset s pll_locked h0 p h) _ hk

theorem not_terminal_after_areset {p k : ℕ} (h : (run step s pll_locked p).pll_areset = true)
    (hk : k < 65535) : (run step s pll_locked (p + k)).terminal = false := by
  have hcount := counter_after_areset h0 pll_locked h (k := k) (by omega)
  by_contra hcon
  rw [Bool.not_eq_false, terminal_iff] at hcon
  omega

/-- No reset for the next 65535 cycles. -/
theorem not_areset_after_areset {p k : ℕ} (h : (run step s pll_locked p).pll_areset = true)
    (hk : k < 65535) : (run step s pll_locked (p + (k + 1))).pll_areset = false := by
  by_contra hcon
  rw [Bool.not_eq_false, ← Nat.add_assoc, run_succ, step_areset_iff] at hcon
  rw [not_terminal_after_areset h0 pll_locked h hk] at hcon
  cases hcon.1

omit h0 in
/-- A saturated counter stays saturated as long as the lock is seen. -/
theorem terminal_stays_iff {n : ℕ} (h : (run step s pll_locked n).terminal = true) (m : ℕ) :
    (∀ k ≤ m, (run step s pll_locked (n + k)).terminal = true)
      ↔ ∀ k < m, (run step s pll_locked (n + k)).locked = true := by
  constructor
  · intro hterm k hk
    rw [← step_terminal (pll_locked (n + k)) (hterm k (by omega)), ← run_succ step s pll_locked]
    exact hterm (k + 1) (by omega)
  · intro hlock k
    induction k with
    | zero =>
        intro _
        exact h
    | succ k ih =>
        intro hk
        rw [← Nat.add_assoc, run_succ, step_terminal _ (ih (by omega))]
        exact hlock k (by omega)

/-- **The restarts of a PLL.** Whatever the lock does: a reset lasts for one cycle, the next one
starts at least 65536 cycles later, the system is in reset in the 65535 cycles after it, and the
counter stays at its end exactly as long as the lock is seen there. -/
theorem pll_restarts :
    (∀ n, (run step s pll_locked n).pll_areset = true →
      (run step s pll_locked (n + 1)).pll_areset = false) ∧
    (∀ m n, m < n → (run step s pll_locked m).pll_areset = true →
      (run step s pll_locked n).pll_areset = true → m + 65536 ≤ n) ∧
    (∀ p k, (run step s pll_locked p).pll_areset = true → 1 ≤ k → k ≤ 65535 →
      (run step s pll_locked (p + k)).pll_areset_flop = true) ∧
    (∀ n, (run step s pll_locked n).terminal = true → ∀ m,
      (∀ k ≤ m, (run step s pll_locked (n + k)).terminal = true)
        ↔ ∀ k < m, (run step s pll_locked (n + k)).locked = true) := by
  refine ⟨?_, ?_, ?_, fun n h m => terminal_stays_iff pll_locked h m⟩
  · intro n h
    exact not_areset_after_areset h0 pll_locked h (k := 0) (by omega)
  · intro m n hmn hm hn
    by_contra hclose
    obtain ⟨k, rfl⟩ := Nat.exists_eq_add_of_lt hmn
    rw [Nat.add_assoc, not_areset_after_areset h0 pll_locked hm (by omega)] at hn
    cases hn
  · intro p k h h1 hk
    obtain ⟨j, rfl⟩ := Nat.exists_eq_add_of_le' h1
    rw [← Nat.add_assoc]
    by_contra hcon
    rw [Bool.not_eq_true, flop_released_iff s pll_locked h0] at hcon
    rw [not_terminal_after_areset h0 pll_locked h (by omega)] at hcon
    cases hcon

end Restarts

/-- A PLL that never locks is restarted in cycle 65536, and the system is in reset for a full
count after that. -/
theorem pll_restarts_unlocked :
    PowerUp poweredUp ∧ (run step poweredUp (fun _ => false) 65536).pll_areset = true ∧
    ∀ k, 1 ≤ k → k ≤ 65535 →
      (run step poweredUp (fun _ => false) (65536 + k)).pll_areset_flop = true := by
  have hend : (run step poweredUp (fun _ => false) 65535).terminal = true := by
    rw [terminal_iff]
    exact counter_from_zero rfl _ (le_refl _)
  have hreset : (run step poweredUp (fun _ => false) 65536).pll_areset = true := by
    rw [run_succ _ _ _ 65535, step_areset_iff]
    exact ⟨hend, locked_sampled poweredUp (fun _ => false) 65532⟩
  obtain ⟨-, -, hflop, -⟩ := pll_restarts (s := poweredUp) rfl (fun _ => false)
  exact ⟨rfl, hreset, fun k h1 hk => hflop 65536 k hreset h1 hk⟩

/-! ## Release and lock -/

/-- Edge `n` releases the system only for a PLL whose lock has been observed. -/
def ReleasesLocked (s : SystemMonitor) (pll_locked : ℕ → Bool) (n : ℕ) : Prop :=
  (run step s pll_locked (n + 1)).pll_areset_flop = false →
    (run step s pll_locked n).locked = true

/-- **When the system is released only for a locked PLL.** On the first `n` edges after
power-up the flop is cleared only with the lock observed if and only if the PLL was locked on
every edge from edge 65532, whose lock the first terminal count sees, up to the last edge whose
lock is seen. -/
theorem system_monitor_releases_locked_iff (s : SystemMonitor) (h0 : PowerUp s)
    (pll_locked : ℕ → Bool) (n : ℕ) :
    (∀ k < n, ReleasesLocked s pll_locked k)
      ↔ ∀ j, 65532 ≤ j → j + 3 < n → pll_locked j = true := by
  constructor
  · intro h j hj hjn
    have hterm : ∀ k < n, (run step s pll_locked k).terminal = true →
        (run step s pll_locked k).locked = true :=
      fun k hk ht => h k hk ((flop_released_iff s pll_locked h0 k).mpr ht)
    have hcount := counter_of_locked s pll_locked h0 (j + 3) (fun k hk => hterm k (by omega))
    have hend : (run step s pll_locked (j + 3)).terminal = true :=
      (terminal_iff _).mpr (by omega)
    rw [← locked_sampled s pll_locked j]
    exact hterm (j + 3) hjn hend
  · intro h
    -- by induction on the edge: no earlier terminal count has restarted the counter
    have hterm : ∀ k < n, (run step s pll_locked k).terminal = true →
        (run step s pll_locked k).locked = true := by
      intro k
      induction k using Nat.strong_induction_on with
      | _ k ih =>
          intro hk ht
          have hcount := counter_of_locked s pll_locked h0 k (fun i hi => ih i hi (by omega))
          have hend := (terminal_iff _).mp ht
          rcases Nat.exists_eq_add_of_le' (show 3 ≤ k by omega) with ⟨j, rfl⟩
          rw [locked_sampled]
          exact h j (by omega) hk
    intro k hk hflop
    exact hterm k hk ((flop_released_iff s pll_locked h0 k).mp hflop)

/-! ### A PLL that never locks -/

/-- The system is released on edge 65535 although the PLL has never been locked. -/
theorem system_monitor_releases_unlocked :
    (run step poweredUp (fun _ => false) 65536).pll_areset_flop = false ∧
    (run step poweredUp (fun _ => false) 65535).locked = false ∧
    ¬ ∀ k, ReleasesLocked poweredUp (fun _ => false) k := by
  have hcount := counter_from_zero (s := poweredUp) rfl (fun _ => false) (le_refl 65535)
  have hflop := (flop_released_iff poweredUp (fun _ => false) rfl 65535).mpr
    ((terminal_iff _).mpr (by omega))
  have hlock := locked_sampled poweredUp (fun _ => false) 65532
  refine ⟨hflop, hlock, ?_⟩
  intro h
  have hlocked := h 65535 hflop
  rw [hlock] at hlocked
  cases hlocked

/-- A PLL that is locked all the time. -/
theorem system_monitor_releases_locked_always :
    (∀ k < 70000, ReleasesLocked poweredUp (fun _ => true) k)
      ↔ ∀ j, 65532 ≤ j → j + 3 < 70000 → (fun _ : ℕ => true) j = true :=
  system_monitor_releases_locked_iff poweredUp rfl (fun _ => true) 70000

end SystemMonitor

end OneBitSDR
