import Mathlib.Tactic

set_option autoImplicit false

/-! # Synchronous circuits and their runs

A synchronous circuit is a step function `S → I → S`: one application is one rising clock
edge, the first argument holds every register before the edge and the second the values of
the input ports at the edge. `run step s u n` is the state after the first `n` edges of the
input stream `u`. The file gives the rules the rest of the development uses on runs: the
invariant rule, the projection of a run onto a submodule, and the list of the values an
event signal has delivered so far.
-/

namespace Clocked

variable {S T I J α : Type*}

/-! ## Runs -/

/-- The state after `n` clock edges, edge `k` reading the input `u k`. -/
def run (step : S → I → S) (s : S) (u : ℕ → I) : ℕ → S
  | 0 => s
  | n + 1 => step (run step s u n) (u n)

@[simp] theorem run_zero (step : S → I → S) (s : S) (u : ℕ → I) : run step s u 0 = s := rfl

theorem run_succ (step : S → I → S) (s : S) (u : ℕ → I) (n : ℕ) :
    run step s u (n + 1) = step (run step s u n) (u n) := rfl

/-- A run of `m + n` edges is a run of `m` edges followed by one of `n`. -/
theorem run_add (step : S → I → S) (s : S) (u : ℕ → I) (m n : ℕ) :
    run step s u (m + n) = run step (run step s u m) (fun k => u (m + k)) n := by
  induction n with
  | zero => rfl
  | succ n ih => rw [← Nat.add_assoc, run_succ, run_succ, ih]

/-- The state depends on the inputs of the past edges only. -/
theorem run_congr (step : S → I → S) (s : S) {u v : ℕ → I} {n : ℕ} (h : ∀ k < n, u k = v k) :
    run step s u n = run step s v n := by
  induction n with
  | zero => rfl
  | succ n ih =>
      rw [run_succ, run_succ, ih (fun k hk => h k (by omega)), h n (by omega)]

/-- **The invariant rule.** What the initial state satisfies and every edge preserves holds
after any number of edges. The invariant may mention the time. -/
theorem run_invariant {step : S → I → S} {s : S} {u : ℕ → I} (P : ℕ → S → Prop) (h0 : P 0 s)
    (hstep : ∀ n s, P n s → P (n + 1) (step s (u n))) (n : ℕ) : P n (run step s u n) := by
  induction n with
  | zero => exact h0
  | succ n ih => exact hstep n _ ih

/-- **The relation rule.** Two runs stay related if they start related and every pair of edges
keeps the relation. -/
theorem run_relation {step : S → I → S} {step' : T → J → T} (R : S → T → Prop) {s : S} {t : T}
    {u : ℕ → I} {v : ℕ → J} (h0 : R s t)
    (hstep : ∀ n s t, R s t → R (step s (u n)) (step' t (v n))) (n : ℕ) :
    R (run step s u n) (run step' t v n) := by
  induction n with
  | zero => exact h0
  | succ n ih => exact hstep n _ _ ih

/-- **The waiting rule.** A condition that only an input of the kind `Q` can end still holds when
the next such input comes. -/
theorem run_until {step : S → I → S} {s : S} {u : ℕ → I} {P : S → Prop} {Q : I → Prop}
    (hwait : ∀ t i, P t → ¬ Q i → P (step t i)) {k : ℕ} (h : P (run step s u k))
    (hnext : ∃ n, k ≤ n ∧ Q (u n)) : ∃ n, k ≤ n ∧ P (run step s u n) ∧ Q (u n) := by
  obtain ⟨n, hkn, hQ⟩ := hnext
  obtain ⟨d, rfl⟩ := Nat.exists_eq_add_of_le hkn
  induction d generalizing k with
  | zero => exact ⟨k, le_refl k, h, hQ⟩
  | succ d ih =>
      by_cases hk : Q (u k)
      · exact ⟨k, le_refl k, h, hk⟩
      · -- edge `k` does not end the wait
        rw [show k + (d + 1) = k + 1 + d by omega] at hQ
        obtain ⟨n, hn, hP, hQn⟩ := ih (k := k + 1) (hwait _ _ h hk) (by omega) hQ
        exact ⟨n, by omega, hP, hQn⟩

/-- A register that no edge from `m` to `n` changes. -/
theorem run_hold {step : S → I → S} {s : S} {u : ℕ → I} (reg : S → α) {m n : ℕ} (hmn : m ≤ n)
    (h : ∀ k, m ≤ k → k < n → reg (step (run step s u k) (u k)) = reg (run step s u k)) :
    reg (run step s u n) = reg (run step s u m) := by
  induction n, hmn using Nat.le_induction with
  | base => rfl
  | succ n hmn ih =>
      rw [run_succ, h n hmn (by omega)]
      exact ih (fun k hk hkn => h k hk (by omega))

/-- A part `proj` of the state that is clocked by `step'` along the run, fed by the signals `g` of
the enclosing module, runs on the stream of those signals. -/
theorem run_proj_of {step : S → I → S} {step' : T → J → T} (proj : S → T) (g : S → I → J) {s : S}
    {u : ℕ → I} {n : ℕ}
    (h : ∀ k < n, proj (step (run step s u k) (u k))
      = step' (proj (run step s u k)) (g (run step s u k) (u k))) :
    proj (run step s u n) = run step' (proj s) (fun k => g (run step s u k) (u k)) n := by
  induction n with
  | zero => rfl
  | succ n ih =>
      rw [run_succ, run_succ, h n (by omega), ih (fun k hk => h k (by omega))]

/-- **Submodules.** A part of the state that is clocked by `step'` in every state. -/
theorem run_proj {step : S → I → S} {step' : T → J → T} (proj : S → T) (g : S → I → J)
    (h : ∀ s i, proj (step s i) = step' (proj s) (g s i)) (s : S) (u : ℕ → I) (n : ℕ) :
    proj (run step s u n) = run step' (proj s) (fun k => g (run step s u k) (u k)) n :=
  run_proj_of proj g (fun k _ => h (run step s u k) (u k))

/-! ## Events

An event signal is a stream `e : ℕ → Option α`: in cycle `k` it either delivers a value or
stays silent. -/

/-- The values delivered in the cycles before `n`, in order. -/
def events (e : ℕ → Option α) : ℕ → List α
  | 0 => []
  | n + 1 => events e n ++ (e n).toList

@[simp] theorem events_zero (e : ℕ → Option α) : events e 0 = [] := rfl

theorem events_succ (e : ℕ → Option α) (n : ℕ) :
    events e (n + 1) = events e n ++ (e n).toList := rfl

theorem events_succ_some {e : ℕ → Option α} {n : ℕ} {a : α} (h : e n = some a) :
    events e (n + 1) = events e n ++ [a] := by
  rw [events_succ, h, Option.toList_some]

theorem events_succ_none {e : ℕ → Option α} {n : ℕ} (h : e n = none) :
    events e (n + 1) = events e n := by
  rw [events_succ, h, Option.toList_none, List.append_nil]

/-- A later list of events extends an earlier one. -/
theorem events_add (e : ℕ → Option α) (m n : ℕ) :
    events e (m + n) = events e m ++ events (fun k => e (m + k)) n := by
  induction n with
  | zero => simp
  | succ n ih => rw [← Nat.add_assoc, events_succ, ih, events_succ, List.append_assoc]

/-- What has been delivered stays delivered. -/
theorem events_mono (e : ℕ → Option α) {m n : ℕ} (h : m ≤ n) : events e m <+: events e n := by
  rcases Nat.exists_eq_add_of_le h with ⟨j, rfl⟩
  rw [events_add]
  exact List.prefix_append _ _

/-- If the list has not grown, nothing has been delivered. -/
theorem eq_none_of_events_eq {e : ℕ → Option α} {m n : ℕ} (h : events e m = events e n) {k : ℕ}
    (hmk : m ≤ k) (hkn : k < n) : e k = none := by
  cases hk : e k with
  | none => rfl
  | some a =>
      have hlow := (events_mono e hmk).length_le
      have hhigh := (events_mono e (show k + 1 ≤ n from hkn)).length_le
      rw [events_succ_some hk, List.length_append, List.length_singleton, ← h] at hhigh
      omega

/-- An event that has happened keeps its place in every later list. -/
theorem events_getD_of_le (e : ℕ → Option α) (d : α) {m n k : ℕ} (h : m ≤ n)
    (hk : k < (events e m).length) : (events e n).getD k d = (events e m).getD k d := by
  rcases Nat.exists_eq_add_of_le h with ⟨j, rfl⟩
  rw [events_add, List.getD_eq_getElem?_getD, List.getElem?_append_left hk,
    List.getD_eq_getElem?_getD]

theorem events_congr {e f : ℕ → Option α} {n : ℕ} (h : ∀ k < n, e k = f k) :
    events e n = events f n := by
  induction n with
  | zero => rfl
  | succ n ih =>
      rw [events_succ, events_succ, ih (fun k hk => h k (by omega)), h n (by omega)]

/-- Events of a signal computed from another one. -/
theorem events_map {β : Type*} (g : α → β) (e : ℕ → Option α) (n : ℕ) :
    events (fun k => (e k).map g) n = (events e n).map g := by
  induction n with
  | zero => rfl
  | succ n ih =>
      rw [events_succ, events_succ, ih, List.map_append]
      cases e n <;> rfl

/-- A flag and a value as an event signal: the value counts in the cycles in which the flag
is up. -/
def strobe (valid : ℕ → Bool) (data : ℕ → α) (n : ℕ) : Option α :=
  if valid n then some (data n) else none

theorem strobe_true {valid : ℕ → Bool} {data : ℕ → α} {n : ℕ} (h : valid n = true) :
    strobe valid data n = some (data n) := by
  simp [strobe, h]

theorem strobe_false {valid : ℕ → Bool} {data : ℕ → α} {n : ℕ} (h : valid n = false) :
    strobe valid data n = none := by
  simp [strobe, h]

/-- One more cycle of a strobed stream. -/
theorem events_strobe_succ (valid : ℕ → Bool) (data : ℕ → α) (n : ℕ) :
    events (strobe valid data) (n + 1)
      = events (strobe valid data) n ++ if valid n then [data n] else [] := by
  rw [events_succ, strobe]
  cases valid n <;> rfl

theorem events_strobe_length_succ (valid : ℕ → Bool) (data : ℕ → α) (n : ℕ) :
    (events (strobe valid data) (n + 1)).length
      = (events (strobe valid data) n).length + if valid n then 1 else 0 := by
  rw [events_strobe_succ, List.length_append]
  cases valid n <;> rfl

/-! ## Clock enables -/

/-- A circuit with a clock enable: it moves only on the edges that bring an input. -/
def gated (step : S → I → S) (s : S) : Option I → S
  | some i => step s i
  | none => s

/-- A gated circuit has made one step for each input so far. -/
theorem run_gated (step : S → I → S) (s : S) (e : ℕ → Option I) (n : ℕ) :
    run (gated step) s e n = (events e n).foldl step s := by
  induction n with
  | zero => rfl
  | succ n ih =>
      rw [run_succ, ih, events_succ, List.foldl_append]
      cases e n <;> rfl

/-- The steps over a list are a run. -/
theorem foldl_eq_run (step : S → I → S) (s : S) (l : List I) (d : I) :
    l.foldl step s = run step s (fun k => l.getD k d) l.length := by
  induction l using List.reverseRecOn with
  | nil => rfl
  | append_singleton l i ih =>
      -- the steps over `l` do not see the last input
      have hprefix : run step s (fun k => (l ++ [i]).getD k d) l.length
          = run step s (fun k => l.getD k d) l.length := by
        apply run_congr
        intro k hk
        rw [List.getD_eq_getElem?_getD, List.getElem?_append_left hk, List.getD_eq_getElem?_getD]
      rw [List.foldl_append, List.length_append, List.length_singleton, run_succ, hprefix, ← ih]
      simp

/-! ## A register on a stream -/

/-- The stream one clock late, after a register that starts with `x`. -/
def registered (x : α) (u : ℕ → α) : ℕ → α
  | 0 => x
  | n + 1 => u n

theorem registered_succ (x : α) (u : ℕ → α) (n : ℕ) : registered x u (n + 1) = u n := rfl

end Clocked
