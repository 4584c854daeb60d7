import OneBitSDR.Clocked.Since

set_option autoImplicit false

/-! # `ps2_keyboard.sv`: the register file behind the PS/2 receiver

The scancodes of the receiver are stored in `data_reg` and announced by `event_flag`. Software
sees the flags in register 0, clears the interrupt through register 1, reads the scancode from
register 2 and acknowledges it by a write to the same register.

All registers are clocked by one `always_ff` block, in which the acknowledge is assigned after
the scancode. An acknowledge on the very edge at which a scancode arrives therefore wins:
`data_reg` has the new scancode, and `event_flag` does not announce it. This edge is the only
way to lose a scancode.
-/

namespace OneBitSDR

open Clocked

/-- The registers of `ps2_keyboard`. -/
structure Ps2Keyboard where
  read_latency : Bool
  event_flag : Bool
  irq_flag : Bool
  data_reg : BitVec 8
  s_readdata : BitVec 32
  irq : Bool

namespace Ps2Keyboard

/-- The input ports, and the outputs of the receiver `ps2_rx`. -/
structure Ports where
  clock_sreset : Bool
  s_address : BitVec 4
  s_writedata : BitVec 32
  s_read : Bool
  s_write : Bool
  ps2_data : BitVec 11
  ps2_data_valid : Bool

/-- The combinational output `s_waitrequest`. -/
def s_waitrequest (s : Ps2Keyboard) (i : Ports) : Bool :=
  if i.s_write then false else if i.s_read then !s.read_latency else i.s_read

/-! The blocks of the `always_ff` process, in its order. Each one overrides assignments to the
next state `t`, and reads the registers `s` as they were before the edge. -/

/-- `if (ps2_data_valid)`. -/
def receive (i : Ports) (t : Ps2Keyboard) : Ps2Keyboard :=
  if i.ps2_data_valid then
    { t with data_reg := i.ps2_data.extractLsb' 1 8, event_flag := true }
  else t

/-- `if (s_address == 4'h0)`. -/
def accessFlags (s : Ps2Keyboard) (i : Ports) (t : Ps2Keyboard) : Ps2Keyboard :=
  if i.s_address = 0 then
    { t with
      s_readdata := (BitVec.ofBool s.event_flag ++ BitVec.ofBool s.irq_flag).setWidth 32
      irq_flag := if i.s_write then i.s_writedata.getLsbD 0 else t.irq_flag }
  else t

/-- `if (s_address == 4'h1)`. -/
def accessIrq (s : Ps2Keyboard) (i : Ports) (t : Ps2Keyboard) : Ps2Keyboard :=
  if i.s_address = 1 then
    if i.s_write then { t with irq := false }
    else { t with irq := s.irq_flag && i.ps2_data_valid }
  else { t with irq := s.irq_flag && i.ps2_data_valid }

/-- `if (s_address == 4'h2)`. -/
def accessData (s : Ps2Keyboard) (i : Ports) (t : Ps2Keyboard) : Ps2Keyboard :=
  if i.s_address = 2 then
    { t with
      s_readdata := s.data_reg.setWidth 32
      event_flag := if i.s_write then false else t.event_flag }
  else t

/-- One rising edge of `clock`. -/
def step (s : Ps2Keyboard) (i : Ports) : Ps2Keyboard :=
  if i.clock_sreset then
    { s with read_latency := false, event_flag := false, irq_flag := false }
  else
    accessData s i (accessIrq s i (accessFlags s i (receive i
      { s with read_latency := if s.read_latency then false else i.s_read })))

/-- A write to register 2: software acknowledges the scancode. -/
def Ports.Acknowledge (i : Ports) : Prop := i.s_address = 2 ∧ i.s_write = true

instance (i : Ports) : Decidable i.Acknowledge :=
  inferInstanceAs (Decidable (i.s_address = 2 ∧ i.s_write = true))

/-! ## One edge -/

section Blocks

variable (s : Ps2Keyboard) (i : Ports) (t : Ps2Keyboard)

theorem receive_event_flag :
    (receive i t).event_flag = (i.ps2_data_valid || t.event_flag) := by
  unfold receive
  cases i.ps2_data_valid <;> rfl

theorem receive_data_reg :
    (receive i t).data_reg
      = if i.ps2_data_valid then i.ps2_data.extractLsb' 1 8 else t.data_reg := by
  unfold receive
  cases i.ps2_data_valid <;> rfl

@[simp] theorem accessFlags_event_flag : (accessFlags s i t).event_flag = t.event_flag := by
  unfold accessFlags
  split <;> rfl

@[simp] theorem accessFlags_data_reg : (accessFlags s i t).data_reg = t.data_reg := by
  unfold accessFlags
  split <;> rfl

@[simp] theorem accessIrq_event_flag : (accessIrq s i t).event_flag = t.event_flag := by
  unfold accessIrq
  split_ifs <;> rfl

@[simp] theorem accessIrq_data_reg : (accessIrq s i t).data_reg = t.data_reg := by
  unfold accessIrq
  split_ifs <;> rfl

theorem accessData_event_flag :
    (accessData s i t).event_flag = if i.Acknowledge then false else t.event_flag := by
  unfold accessData
  by_cases ha : i.Acknowledge
  · rw [if_pos ha.1, if_pos ha, ha.2, if_pos rfl]
  · rw [if_neg ha]
    by_cases h2 : i.s_address = 2
    · have hw : ¬ i.s_write = true := fun hw => ha ⟨h2, hw⟩
      rw [if_pos h2, if_neg hw]
    · rw [if_neg h2]

@[simp] theorem accessData_data_reg : (accessData s i t).data_reg = t.data_reg := by
  unfold accessData
  split <;> rfl

end Blocks

theorem step_reset (s : Ps2Keyboard) {i : Ports} (h : i.clock_sreset = true) :
    (step s i).event_flag = false := by
  simp [step, h]

/-- What one edge out of reset does with the flag: the acknowledge has the last word. -/
theorem step_event_flag (s : Ps2Keyboard) {i : Ports} (h : i.clock_sreset = false) :
    (step s i).event_flag
      = if i.Acknowledge then false else (i.ps2_data_valid || s.event_flag) := by
  unfold step
  rw [h, if_neg Bool.false_ne_true, accessData_event_flag, accessIrq_event_flag,
    accessFlags_event_flag, receive_event_flag]

/-- What one edge out of reset does with the data register. -/
theorem step_data_reg (s : Ps2Keyboard) {i : Ports} (h : i.clock_sreset = false) :
    (step s i).data_reg
      = if i.ps2_data_valid then i.ps2_data.extractLsb' 1 8 else s.data_reg := by
  unfold step
  rw [h, if_neg Bool.false_ne_true, accessData_data_reg, accessIrq_data_reg,
    accessFlags_data_reg, receive_data_reg]

/-! ## Pending scancodes -/

/-- A scancode that arrived since the last reset and has not been acknowledged since it
arrived. -/
def Pending (u : ℕ → Ports) : ℕ → Prop :=
  Since (fun k => (u k).clock_sreset = false ∧ ¬ (u k).Acknowledge)
    (fun k => (u k).clock_sreset = false ∧ (u k).ps2_data_valid = true)

/-- A scancode and an acknowledge on the same edge. -/
def Ports.Collision (i : Ports) : Prop :=
  i.clock_sreset = false ∧ i.ps2_data_valid = true ∧ i.Acknowledge

/-- The flag and the history agree after an edge without a collision if they agreed before. -/
theorem pending_step (s : Ps2Keyboard) (u : ℕ → Ports) (n : ℕ)
    (h : s.event_flag = true ↔ Pending u n) (hc : ¬ (u n).Collision) :
    (step s (u n)).event_flag = true ↔ Pending u (n + 1) := by
  unfold Pending at h ⊢
  rw [since_succ, ← h]
  cases hr : (u n).clock_sreset with
  | true => simp [step_reset s hr]
  | false =>
      rw [step_event_flag s hr]
      by_cases ha : (u n).Acknowledge
      · -- the edge acknowledges, so no scancode arrives on it
        have hv : (u n).ps2_data_valid = false := by
          by_contra hv
          rw [Bool.not_eq_false] at hv
          exact hc ⟨hr, hv, ha⟩
        simp [ha, hv]
      · simp [ha]

/-- An edge with a collision leaves a pending scancode that is not announced. -/
theorem collision_step (s : Ps2Keyboard) (u : ℕ → Ports) (n : ℕ) (hc : (u n).Collision) :
    (step s (u n)).event_flag = false ∧ Pending u (n + 1) := by
  rcases hc with ⟨hr, hv, ha⟩
  constructor
  · rw [step_event_flag s hr, if_pos ha]
  · exact (since_succ n).mpr (Or.inl ⟨hr, hv⟩)

/-- **When no scancode is lost.** From a reset on, `event_flag` tells after each of the first
`n` edges whether a scancode is pending if and only if none of these edges brings a scancode
together with an acknowledge. -/
theorem event_flag_pending_iff (s : Ps2Keyboard) (u : ℕ → Ports)
    (h0 : (u 0).clock_sreset = true) (n : ℕ) :
    (∀ m, 0 < m → m ≤ n → ((run step s u m).event_flag = true ↔ Pending u m))
      ↔ ∀ k < n, ¬ (u k).Collision := by
  constructor
  · intro h k hk hc
    obtain ⟨hflag, hpending⟩ := collision_step (run step s u k) u k hc
    have hset := (h (k + 1) (by omega) (by omega)).mpr hpending
    rw [run_succ, hflag] at hset
    cases hset
  · intro hc m
    induction m with
    | zero =>
        intro h
        omega
    | succ m ih =>
        intro _ hm
        rw [run_succ]
        by_cases hm0 : m = 0
        · -- the first edge is the reset
          subst hm0
          simp [step_reset _ h0, Pending, since_succ, not_since_zero, h0]
        · exact pending_step _ u m (ih (by omega) (by omega)) (hc m (by omega))

/-! ### A scancode that is lost -/

/-- The bus is idle and the receiver has nothing. -/
def Ports.idle : Ports where
  clock_sreset := false
  s_address := 0
  s_writedata := 0
  s_read := false
  s_write := false
  ps2_data := 0
  ps2_data_valid := false

def poweredUp : Ps2Keyboard where
  read_latency := false
  event_flag := false
  irq_flag := false
  data_reg := 0
  s_readdata := 0
  irq := false

/-- A reset, then the scancode of `+` on the edge of an acknowledge. -/
def lostScancode : ℕ → Ports
  | 0 => { Ports.idle with clock_sreset := true }
  | 1 => { Ports.idle with
      s_address := 2, s_write := true, ps2_data := 0x6aa, ps2_data_valid := true }
  | _ => Ports.idle

/-- The scancode is in `data_reg`, it is pending, and the flag does not announce it. -/
theorem event_flag_misses_scancode :
    (run step poweredUp lostScancode 2).data_reg = 0x55 ∧
    ¬ ((run step poweredUp lostScancode 2).event_flag = true ↔ Pending lostScancode 2) := by
  refine ⟨by decide, ?_⟩
  rintro ⟨-, h⟩
  have hpending : Pending lostScancode 2 := ⟨1, by omega, ⟨rfl, rfl⟩, fun j hj hlt => by omega⟩
  exact absurd (h hpending) (by decide)

/-- A reset, a scancode, and an acknowledge two edges later. -/
def seenScancode : ℕ → Ports
  | 0 => { Ports.idle with clock_sreset := true }
  | 1 => { Ports.idle with ps2_data := 0x6aa, ps2_data_valid := true }
  | 3 => { Ports.idle with s_address := 2, s_write := true }
  | _ => Ports.idle

theorem event_flag_pending_seen :
    (∀ m, 0 < m → m ≤ 5 →
      ((run step poweredUp seenScancode m).event_flag = true ↔ Pending seenScancode m))
      ↔ ∀ k < 5, ¬ (seenScancode k).Collision :=
  event_flag_pending_iff poweredUp seenScancode rfl 5

end Ps2Keyboard

end OneBitSDR
