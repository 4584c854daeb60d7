import OneBitSDR.Ps2.Keyboard

set_option autoImplicit false

/-! # The bus handshake of `ps2_keyboard`

A read takes two cycles: `s_waitrequest` is high in the first one, in which `s_readdata` is
loaded, and low in the second. Which of the two it is is kept in `read_latency` alone. For a
master that holds a read until it is answered and never reads and writes at once the flop is in
step with the transfers: after every edge it is up exactly if the edge was the first one of a
read.
-/

namespace OneBitSDR

open Clocked

namespace Ps2Keyboard

/-! ## One edge -/

section Blocks

variable (s : Ps2Keyboard) (i : Ports) (t : Ps2Keyboard)

theorem accessIrq_frame :
    (accessIrq s i t).read_latency = t.read_latency ∧ (accessIrq s i t).irq_flag = t.irq_flag ∧
    (accessIrq s i t).s_readdata = t.s_readdata := by
  unfold accessIrq
  split_ifs <;> exact ⟨rfl, rfl, rfl⟩

theorem receive_frame :
    (receive i t).read_latency = t.read_latency ∧ (receive i t).irq_flag = t.irq_flag ∧
    (receive i t).s_readdata = t.s_readdata := by
  unfold receive
  split_ifs <;> exact ⟨rfl, rfl, rfl⟩

theorem accessFlags_read_latency : (accessFlags s i t).read_latency = t.read_latency := by
  unfold accessFlags
  split_ifs <;> rfl

theorem accessData_read_latency : (accessData s i t).read_latency = t.read_latency := by
  unfold accessData
  split_ifs <;> rfl

theorem accessData_irq_flag : (accessData s i t).irq_flag = t.irq_flag := by
  unfold accessData
  split_ifs <;> rfl

end Blocks

section Step

variable (s : Ps2Keyboard) {i : Ports} (h : i.clock_sreset = false)

include h

theorem step_read_latency : (step s i).read_latency = (!s.read_latency && i.s_read) := by
  unfold step
  rw [h, if_neg Bool.false_ne_true, accessData_read_latency, (accessIrq_frame s i _).1,
    accessFlags_read_latency, (receive_frame i _).1]
  cases s.read_latency <;> rfl

theorem step_irq_flag :
    (step s i).irq_flag
      = if i.s_address = 0 ∧ i.s_write = true then i.s_writedata.getLsbD 0 else s.irq_flag := by
  unfold step
  rw [h, if_neg Bool.false_ne_true, accessData_irq_flag, (accessIrq_frame s i _).2.1]
  unfold accessFlags
  by_cases h0 : i.s_address = 0
  · rw [if_pos h0]
    dsimp only
    rw [(receive_frame i _).2.1]
    cases i.s_write <;> simp [h0]
  · have hnot : ¬ (i.s_address = 0 ∧ i.s_write = true) := fun hw => h0 hw.1
    rw [if_neg h0, (receive_frame i _).2.1, if_neg hnot]

/-- The register of the address is loaded on every edge, whether or not it is read. -/
theorem step_s_readdata :
    (step s i).s_readdata
      = if i.s_address = 0 then (BitVec.ofBool s.event_flag ++ BitVec.ofBool s.irq_flag).setWidth 32
        else if i.s_address = 2 then s.data_reg.setWidth 32
        else s.s_readdata := by
  unfold step
  rw [h, if_neg Bool.false_ne_true]
  unfold accessData
  by_cases h2 : i.s_address = 2
  · simp [h2]
  · rw [if_neg h2, if_neg h2, (accessIrq_frame s i _).2.2]
    unfold accessFlags
    by_cases h0 : i.s_address = 0
    · rw [if_pos h0, if_pos h0]
    · rw [if_neg h0, if_neg h0, (receive_frame i _).2.2]

end Step

/-! ## The master -/

/-- In cycle `n` a read is told to wait. -/
def Stalled (s : Ps2Keyboard) (u : ℕ → Ports) (n : ℕ) : Prop :=
  (u n).s_read = true ∧ s_waitrequest (run step s u n) (u n) = true

/-- Cycle `n` is the first one of a read: the cycle before it was not a read that has to wait. -/
def ReadBegins (s : Ps2Keyboard) (u : ℕ → Ports) : ℕ → Prop
  | 0 => (u 0).s_read = true
  | n + 1 => (u (n + 1)).s_read = true ∧ ¬ Stalled s u n

theorem ReadBegins.read {s : Ps2Keyboard} {u : ℕ → Ports} {n : ℕ} (h : ReadBegins s u n) :
    (u n).s_read = true := by
  cases n with
  | zero => exact h
  | succ n => exact h.1

/-- The bus master, after a reset. -/
structure Master (s : Ps2Keyboard) (u : ℕ → Ports) : Prop where
  running : ∀ n, (u n).clock_sreset = false
  exclusive : ∀ n, ¬ ((u n).s_read = true ∧ (u n).s_write = true)
  holds : ∀ n, Stalled s u n → (u (n + 1)).s_read = true ∧ (u (n + 1)).s_address = (u n).s_address

/-- The cycle `j` in place of `i`: a read is replaced by an idle cycle, whatever is on the address
and data lines then. -/
def ReadAsIdle (i j : Ports) : Prop :=
  if i.s_read = true then
    j.s_read = false ∧ j.s_write = false ∧ j.clock_sreset = i.clock_sreset ∧
      j.ps2_data = i.ps2_data ∧ j.ps2_data_valid = i.ps2_data_valid
  else j = i

theorem s_waitrequest_iff (s : Ps2Keyboard) (i : Ports) :
    s_waitrequest s i = true ↔ i.s_read = true ∧ i.s_write = false ∧ s.read_latency = false := by
  unfold s_waitrequest
  cases i.s_write <;> cases i.s_read <;> simp

theorem s_waitrequest_write (s : Ps2Keyboard) {i : Ports} (h : i.s_write = true) :
    s_waitrequest s i = false := by
  simp [s_waitrequest, h]

/-! ## Transfers -/

section Transfers

variable {s : Ps2Keyboard} {u : ℕ → Ports} (hm : Master s u)

include hm

theorem Master.not_write {n : ℕ} (h : (u n).s_read = true) : (u n).s_write = false := by
  by_contra hw
  exact hm.exclusive n ⟨h, Bool.not_eq_false _ ▸ hw⟩

theorem stalled_iff (n : ℕ) :
    Stalled s u n ↔ (u n).s_read = true ∧ (run step s u n).read_latency = false := by
  unfold Stalled
  rw [s_waitrequest_iff]
  constructor
  · rintro ⟨hr, _, _, hl⟩
    exact ⟨hr, hl⟩
  · rintro ⟨hr, hl⟩
    exact ⟨hr, hr, hm.not_write hr, hl⟩

/-- **The flop is in step.** After every edge it is up exactly if the edge was the first one of a
read. -/
theorem read_latency_iff (n : ℕ) : (run step s u (n + 1)).read_latency = true ↔ Stalled s u n := by
  rw [run_succ, step_read_latency _ (hm.running n), stalled_iff hm, Bool.and_eq_true,
    Bool.not_eq_true']
  exact and_comm

/-- A transfer finds the flop down. -/
theorem read_latency_of_readBegins (h0 : s.read_latency = false) {n : ℕ} (h : ReadBegins s u n) :
    (run step s u n).read_latency = false := by
  cases n with
  | zero => exact h0
  | succ n =>
      rw [← Bool.not_eq_true, read_latency_iff hm]
      exact h.2

/-- The first cycle of a read has to wait, -/
theorem stalled_of_readBegins (h0 : s.read_latency = false) {n : ℕ} (h : ReadBegins s u n) :
    Stalled s u n :=
  (stalled_iff hm n).mpr ⟨h.read, read_latency_of_readBegins hm h0 h⟩

/-- and the cycle after it does not. -/
theorem not_wait_of_stalled {n : ℕ} (h : Stalled s u n) :
    s_waitrequest (run step s u (n + 1)) (u (n + 1)) = false := by
  by_contra hcon
  rw [Bool.not_eq_false, s_waitrequest_iff, (read_latency_iff hm n).mpr h] at hcon
  cases hcon.2.2

/-- A cycle that has to wait is the first one of its read: none waits twice. -/
theorem readBegins_of_stalled {n : ℕ} (h : Stalled s u n) : ReadBegins s u n := by
  cases n with
  | zero => exact h.1
  | succ n =>
      refine ⟨h.1, ?_⟩
      intro hbefore
      have hlow := not_wait_of_stalled hm hbefore
      rw [h.2] at hlow
      cases hlow

/-- Every cycle of a read is its first or its second one. -/
theorem readBegins_or (h0 : s.read_latency = false) {n : ℕ} (hr : (u n).s_read = true) :
    ReadBegins s u n ∨ ∃ m, n = m + 1 ∧ ReadBegins s u m := by
  by_cases hstalled : Stalled s u n
  · exact Or.inl (readBegins_of_stalled hm hstalled)
  · right
    have hl : (run step s u n).read_latency = true := by
      by_contra hl
      exact hstalled ((stalled_iff hm n).mpr ⟨hr, Bool.not_eq_true _ ▸ hl⟩)
    cases n with
    | zero =>
        rw [run_zero, h0] at hl
        cases hl
    | succ m => exact ⟨m, rfl, readBegins_of_stalled hm ((read_latency_iff hm m).mp hl)⟩

end Transfers

/-! ## Side effects -/

/-- The registers a program can see are the same. -/
structure SameRegisters (s t : Ps2Keyboard) : Prop where
  event_flag : s.event_flag = t.event_flag
  irq_flag : s.irq_flag = t.irq_flag
  data_reg : s.data_reg = t.data_reg

/-- A read changes them as an idle cycle does. -/
theorem SameRegisters.step {s t : Ps2Keyboard} (h : SameRegisters s t) {i j : Ports}
    (hrun : i.clock_sreset = false) (hexcl : ¬ (i.s_read = true ∧ i.s_write = true))
    (hij : ReadAsIdle i j) : SameRegisters (s.step i) (t.step j) := by
  unfold ReadAsIdle at hij
  by_cases hr : i.s_read = true
  · rw [if_pos hr] at hij
    obtain ⟨-, hwj, hreset, hdata, hvalid⟩ := hij
    rw [hrun] at hreset
    have hwi : ¬ i.s_write = true := fun hw => hexcl ⟨hr, hw⟩
    have hwj' : ¬ j.s_write = true := by simp [hwj]
    -- without a write only the receiver changes the registers
    refine ⟨?_, ?_, ?_⟩
    · rw [step_event_flag s hrun, step_event_flag t hreset, if_neg (fun ha => hwi ha.2),
        if_neg (fun ha => hwj' ha.2), hvalid, h.event_flag]
    · rw [step_irq_flag s hrun, step_irq_flag t hreset, if_neg (fun ha => hwi ha.2),
        if_neg (fun ha => hwj' ha.2), h.irq_flag]
    · rw [step_data_reg s hrun, step_data_reg t hreset, hvalid, hdata, h.data_reg]
  · rw [if_neg hr] at hij
    rw [hij]
    refine ⟨?_, ?_, ?_⟩
    · rw [step_event_flag s hrun, step_event_flag t hrun, h.event_flag]
    · rw [step_irq_flag s hrun, step_irq_flag t hrun, h.irq_flag]
    · rw [step_data_reg s hrun, step_data_reg t hrun, h.data_reg]

/-! ## The handshake -/

/-- **The handshake.** From a reset on, and whatever the receiver does meanwhile: a read waits in
its first cycle and completes in its second one, with the register as it stood in the first; a
write completes at once; and the registers go on as if no cycle had been a read. -/
theorem handshake (s : Ps2Keyboard) (r : Ports) (u : ℕ → Ports) (hr : r.clock_sreset = true)
    (hm : Master (step s r) u) :
    (∀ n, ReadBegins (step s r) u n →
      s_waitrequest (run step (step s r) u n) (u n) = true ∧
      (u (n + 1)).s_read = true ∧ (u (n + 1)).s_address = (u n).s_address ∧
      s_waitrequest (run step (step s r) u (n + 1)) (u (n + 1)) = false ∧
      ((u n).s_address = 0 → (run step (step s r) u (n + 1)).s_readdata
        = (BitVec.ofBool (run step (step s r) u n).event_flag
            ++ BitVec.ofBool (run step (step s r) u n).irq_flag).setWidth 32) ∧
      ((u n).s_address = 2 → (run step (step s r) u (n + 1)).s_readdata
        = (run step (step s r) u n).data_reg.setWidth 32)) ∧
    (∀ n, (u n).s_read = true →
      ReadBegins (step s r) u n ∨ ∃ m, n = m + 1 ∧ ReadBegins (step s r) u m) ∧
    (∀ n, (u n).s_write = true → s_waitrequest (run step (step s r) u n) (u n) = false) ∧
    (∀ v : ℕ → Ports, (∀ n, ReadAsIdle (u n) (v n)) → ∀ n,
      SameRegisters (run step (step s r) u n) (run step (step s r) v n)) := by
  have h0 : (step s r).read_latency = false := by simp [step, hr]
  refine ⟨?_, fun n => readBegins_or hm h0, fun n hw => s_waitrequest_write _ hw, ?_⟩
  · intro n hbegins
    have hstalled := stalled_of_readBegins hm h0 hbegins
    obtain ⟨hread, haddress⟩ := hm.holds n hstalled
    refine ⟨hstalled.2, hread, haddress, not_wait_of_stalled hm hstalled, ?_, ?_⟩
    · intro ha
      rw [run_succ, step_s_readdata _ (hm.running n), if_pos ha]
    · intro ha
      have hne : ¬ (u n).s_address = 0 := by
        rw [ha]
        decide
      rw [run_succ, step_s_readdata _ (hm.running n), if_neg hne, if_pos ha]
  · intro v hv n
    refine run_relation SameRegisters ⟨rfl, rfl, rfl⟩ ?_ n
    intro k t t' ht
    exact ht.step (hm.running k) (hm.exclusive k) (hv k)

/-- A read of the scancode, its acknowledge, and a read of the flags, back to back, while a
scancode arrives. -/
def backToBack : ℕ → Ports
  | 0 => { Ports.idle with s_address := 2, s_read := true }
  | 1 => { Ports.idle with
      s_address := 2, s_read := true, ps2_data := 0x6aa, ps2_data_valid := true }
  | 2 => { Ports.idle with s_address := 2, s_write := true }
  | 3 => { Ports.idle with s_read := true }
  | 4 => { Ports.idle with s_read := true }
  | _ => Ports.idle

theorem backToBack_master :
    Master (step poweredUp { Ports.idle with clock_sreset := true }) backToBack := by
  refine ⟨?_, ?_, ?_⟩
  · intro n
    match n with
    | 0 | 1 | 2 | 3 | 4 => rfl
    | k + 5 => rfl
  · intro n
    match n with
    | 0 | 1 | 2 | 3 | 4 => decide
    | k + 5 => exact fun h => Bool.false_ne_true h.1
  · intro n h
    match n with
    | 0 | 3 => exact ⟨rfl, rfl⟩
    | 1 => exact absurd h.2 (by decide)
    | 2 => exact absurd h.1 (by decide)
    | 4 => exact absurd h.2 (by decide)
    | k + 5 => exact absurd h.1 Bool.false_ne_true

/-- Both reads are answered in their second cycle. -/
theorem handshake_backToBack :
    Master (step poweredUp { Ports.idle with clock_sreset := true }) backToBack ∧
    s_waitrequest (run step (step poweredUp { Ports.idle with clock_sreset := true }) backToBack 1)
      (backToBack 1) = false ∧
    s_waitrequest (run step (step poweredUp { Ports.idle with clock_sreset := true }) backToBack 4)
      (backToBack 4) = false := by
  obtain ⟨hread, -⟩ := handshake poweredUp { Ports.idle with clock_sreset := true } backToBack rfl
    backToBack_master
  have hfourth :
      ReadBegins (step poweredUp { Ports.idle with clock_sreset := true }) backToBack 3 :=
    ⟨rfl, fun h => absurd h.1 (by decide)⟩
  exact ⟨backToBack_master, (hread 0 rfl).2.2.2.1, (hread 3 hfourth).2.2.2.1⟩

end Ps2Keyboard

end OneBitSDR
