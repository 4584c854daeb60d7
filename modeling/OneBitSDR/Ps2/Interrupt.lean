import OneBitSDR.Ps2.Keyboard

set_option autoImplicit false

/-! # The interrupt of `ps2_keyboard`

`irq` is assigned on every edge out of reset: a write to register 1 clears it, and every other
edge sets it to `irq_flag & ps2_data_valid`. A scancode is valid for one cycle, so the request
lasts for one cycle too, whether or not software has seen it. The file says which input streams
let it stay until it is cleared.
-/

namespace OneBitSDR

open Clocked

namespace Ps2Keyboard

/-- A write to register 1: software clears the interrupt. -/
def Ports.ClearsIrq (i : Ports) : Prop := i.s_address = 1 ∧ i.s_write = true

instance (i : Ports) : Decidable i.ClearsIrq :=
  inferInstanceAs (Decidable (i.s_address = 1 ∧ i.s_write = true))

/-- The edge requests an interrupt: a scancode arrives, interrupts are enabled, and software does
not clear the request on the same edge. -/
def Raises (s : Ps2Keyboard) (i : Ports) : Prop :=
  i.clock_sreset = false ∧ ¬ i.ClearsIrq ∧ s.irq_flag = true ∧ i.ps2_data_valid = true

/-! ## One edge -/

@[simp] theorem accessData_irq (s : Ps2Keyboard) (i : Ports) (t : Ps2Keyboard) :
    (accessData s i t).irq = t.irq := by
  unfold accessData
  split <;> rfl

theorem accessIrq_irq (s : Ps2Keyboard) (i : Ports) (t : Ps2Keyboard) :
    (accessIrq s i t).irq = if i.ClearsIrq then false else (s.irq_flag && i.ps2_data_valid) := by
  unfold accessIrq
  by_cases hc : i.ClearsIrq
  · rw [if_pos hc.1, if_pos hc, hc.2, if_pos rfl]
  · rw [if_neg hc]
    by_cases h1 : i.s_address = 1
    · have hw : ¬ i.s_write = true := fun hw => hc ⟨h1, hw⟩
      rw [if_pos h1, if_neg hw]
    · rw [if_neg h1]

/-- What one edge out of reset does with `irq`; its old value plays no part. -/
theorem step_irq (s : Ps2Keyboard) {i : Ports} (h : i.clock_sreset = false) :
    (step s i).irq = true ↔ Raises s i := by
  unfold step Raises
  rw [h, if_neg Bool.false_ne_true, accessData_irq, accessIrq_irq]
  by_cases hc : i.ClearsIrq
  · simp [hc]
  · simp [hc]

/-! ## Interrupts that stay -/

/-- An edge out of reset that leaves `irq` up. -/
def SetsIrq (s : Ps2Keyboard) (u : ℕ → Ports) (k : ℕ) : Prop :=
  (u k).clock_sreset = false ∧ (run step s u (k + 1)).irq = true

theorem setsIrq_iff (s : Ps2Keyboard) (u : ℕ → Ports) (k : ℕ) :
    SetsIrq s u k ↔ Raises (run step s u k) (u k) := by
  constructor
  · rintro ⟨hr, hirq⟩
    exact (step_irq _ hr).mp hirq
  · intro h
    exact ⟨h.1, (step_irq _ h.1).mpr h⟩

/-- `irq` has become 1, and since then software has not cleared it and no reset was active. -/
def Requested (s : Ps2Keyboard) (u : ℕ → Ports) : ℕ → Prop :=
  Since (fun k => (u k).clock_sreset = false ∧ ¬ (u k).ClearsIrq) (SetsIrq s u)

/-- The edge after a request clears it, resets the module, or requests again. -/
def Attended (s : Ps2Keyboard) (u : ℕ → Ports) (k : ℕ) : Prop :=
  (u (k + 1)).clock_sreset = true ∨ (u (k + 1)).ClearsIrq ∨
    Raises (run step s u (k + 1)) (u (k + 1))

/-- If every request is attended by the next edge, one that stands was made on the last edge. -/
theorem setsIrq_of_requested {s : Ps2Keyboard} {u : ℕ → Ports} {n : ℕ}
    (h : ∀ k < n, Raises (run step s u k) (u k) → Attended s u k) (hreq : Requested s u (n + 1)) :
    SetsIrq s u n := by
  induction n with
  | zero =>
      rcases (since_succ 0).mp hreq with hset | ⟨hbefore, _⟩
      · exact hset
      · exact absurd hbefore not_since_zero
  | succ n ih =>
      rcases (since_succ (n + 1)).mp hreq with hset | ⟨hbefore, hrun, hclear⟩
      · exact hset
      · have hlast := ih (fun k hk => h k (by omega)) hbefore
        rcases h n (by omega) ((setsIrq_iff s u n).mp hlast) with hreset | hcleared | hraise
        · rw [hrun] at hreset
          cases hreset
        · exact absurd hcleared hclear
        · exact (setsIrq_iff s u (n + 1)).mpr hraise

/-- **When the interrupt is held until it is acknowledged.** Once `irq` has become 1 it stays up
until a write to register 1 or a reset, in the whole run, if and only if each edge that requests
an interrupt is followed by one that clears it, resets the module or requests again. -/
theorem irq_held_iff (s : Ps2Keyboard) (u : ℕ → Ports) :
    (∀ n, Requested s u n → (run step s u n).irq = true)
      ↔ ∀ k, Raises (run step s u k) (u k) → Attended s u k := by
  constructor
  · intro h k hraise
    by_cases hrun : (u (k + 1)).clock_sreset = false
    · by_cases hclear : (u (k + 1)).ClearsIrq
      · exact Or.inr (Or.inl hclear)
      · -- the request of edge `k` still stands after the next edge
        have hreq : Requested s u (k + 2) := by
          refine (since_succ (k + 1)).mpr (Or.inr ⟨(since_succ k).mpr (Or.inl ?_), hrun, hclear⟩)
          exact (setsIrq_iff s u k).mpr hraise
        exact Or.inr (Or.inr ((step_irq _ hrun).mp (h (k + 2) hreq)))
    · exact Or.inl (Bool.not_eq_false _ ▸ hrun)
  · intro h n hreq
    cases n with
    | zero => exact absurd hreq not_since_zero
    | succ n => exact (setsIrq_of_requested (fun k _ => h k) hreq).2

/-! ### An interrupt that is lost -/

/-- A reset, interrupts enabled through register 0, then one scancode on an idle bus. -/
def lostInterrupt : ℕ → Ports
  | 0 => { Ports.idle with clock_sreset := true }
  | 1 => { Ports.idle with s_write := true, s_writedata := 1 }
  | 2 => { Ports.idle with ps2_data := 0x6aa, ps2_data_valid := true }
  | _ => Ports.idle

/-- The interrupt is up for one cycle. Nothing has cleared it, and the scancode is pending. -/
theorem irq_drops :
    (run step poweredUp lostInterrupt 3).irq = true ∧
    (run step poweredUp lostInterrupt 4).irq = false ∧
    (run step poweredUp lostInterrupt 4).event_flag = true ∧
    Requested poweredUp lostInterrupt 4 ∧
    ¬ ∀ n, Requested poweredUp lostInterrupt n → (run step poweredUp lostInterrupt n).irq = true := by
  have hirq : (run step poweredUp lostInterrupt 4).irq = false := by decide
  have hreq : Requested poweredUp lostInterrupt 4 := by
    refine ⟨2, by omega, ⟨rfl, by decide⟩, ?_⟩
    intro j hj hlt
    obtain rfl : j = 3 := by omega
    exact ⟨rfl, by decide⟩
  refine ⟨by decide, hirq, by decide, hreq, ?_⟩
  intro h
  rw [h 4 hreq] at hirq
  cases hirq

end Ps2Keyboard

end OneBitSDR
