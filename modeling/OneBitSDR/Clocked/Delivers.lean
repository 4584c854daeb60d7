import OneBitSDR.Clocked.Run

set_option autoImplicit false

/-! # Runs with an output

`Delivers step emits s u n Q out` is a triple for a circuit with an event output: from the state
`s` the first `n` edges of the input `u` lead to a state with `Q` and deliver exactly `out`. The
rules are those of a program logic: a run is cut into phases, and the outputs are appended.
-/

namespace Clocked

variable {S I α : Type*}

/-- From `s`, the first `n` edges of `u` lead to a state with `Q` and deliver `out`. -/
structure Delivers (step : S → I → S) (emits : S → I → Option α) (s : S) (u : ℕ → I) (n : ℕ)
    (Q : S → Prop) (out : List α) : Prop where
  post : Q (run step s u n)
  events_eq : events (fun k => emits (run step s u k) (u k)) n = out

namespace Delivers

variable {step : S → I → S} {emits : S → I → Option α} {s : S} {u : ℕ → I} {n : ℕ}
  {Q R : S → Prop} {out out' : List α}

/-- The empty run. -/
theorem zero (h : Q s) : Delivers step emits s u 0 Q [] where
  post := h
  events_eq := rfl

/-- The rule of consequence. -/
theorem mono (h : Delivers step emits s u n Q out) (hQ : ∀ t, Q t → R t) :
    Delivers step emits s u n R out where
  post := hQ _ h.post
  events_eq := h.events_eq

/-- The rule of sequence. -/
theorem seq {m : ℕ} (h : Delivers step emits s u n Q out)
    (h' : ∀ t, Q t → Delivers step emits t (fun k => u (n + k)) m R out') :
    Delivers step emits s u (n + m) R (out ++ out') := by
  obtain ⟨hpost, hevents⟩ := h' _ h.post
  refine ⟨?_, ?_⟩
  · rw [run_add]
    exact hpost
  · rw [events_add, h.events_eq, ← hevents]
    simp only [run_add]

/-- The rule of sequence after a silent run. -/
theorem silent_seq {m : ℕ} (h : Delivers step emits s u n Q [])
    (h' : ∀ t, Q t → Delivers step emits t (fun k => u (n + k)) m R out) :
    Delivers step emits s u (n + m) R out := h.seq h'

/-- One edge. -/
theorem tick {e : Option α} (hQ : Q (step s (u 0))) (he : emits s (u 0) = e) :
    Delivers step emits s u 1 Q e.toList where
  post := hQ
  events_eq := by
    rw [events_succ, events_zero, List.nil_append, run_zero, he]

/-- A phase without output: an invariant that may count the edges. -/
theorem silent {P : ℕ → S → Prop} (h0 : P 0 s)
    (hstep : ∀ k < n, ∀ t, P k t → P (k + 1) (step t (u k)) ∧ emits t (u k) = none) :
    Delivers step emits s u n (P n) [] := by
  induction n with
  | zero => exact zero h0
  | succ n ih =>
      have hprev := ih (fun k hk => hstep k (by omega))
      refine hprev.silent_seq (m := 1) ?_
      intro t ht
      obtain ⟨hpost, hnone⟩ := hstep n (by omega) t ht
      exact tick (e := none) hpost hnone

end Delivers

end Clocked
