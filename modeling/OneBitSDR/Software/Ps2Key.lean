import OneBitSDR.Ps2.Handshake

set_option autoImplicit false

/-! # `wait_ps2_key`: the keyboard driver on the bus

A call writes to register 2, reads register 0 until `event_flag` is set there, and returns what it
reads from register 2. The processor needs any number of clocks between two accesses, and a read
takes two. Scancodes arrive all the while. The file follows the processor and the register file
clock by clock: what a call returns, and how often a key may be pressed if none is to be lost.
-/

namespace OneBitSDR

open Clocked

/-! ## The processor -/

/-- The accesses of a call: `IOWR(base, 2, 0)`, `IORD(base, 0)` and `IORD(base, 2)`. -/
inductive Access
  | acknowledge
  | poll
  | fetch
  deriving DecidableEq

/-- The offset from `base`. -/
def Access.offset : Access → BitVec 4
  | .acknowledge => 2
  | .poll => 0
  | .fetch => 2

/-- The access that comes next, and whether it is on the bus and has been told to wait. -/
structure WaitPs2Key where
  next : Access
  started : Bool

/-- One clock of the processor, with an access on the bus if `active`. -/
def WaitPs2Key.advance (w : WaitPs2Key) (active s_waitrequest : Bool) (s_readdata : BitVec 32) :
    WaitPs2Key :=
  if active then
    if s_waitrequest then { w with started := true }
    else
      match w.next with
      | .acknowledge => { next := .poll, started := false }
      -- `while ((IORD(base, 0) & 0x2) == 0);`
      | .poll => { next := if s_readdata &&& 2 = 0 then .poll else .fetch, started := false }
      -- the call returns, and the next one begins with its write
      | .fetch => { next := .acknowledge, started := false }
  else w

/-! ## The processor and the keyboard -/

/-- The register file and the processor. -/
structure KeyPolling where
  keyboard : Ps2Keyboard
  call : WaitPs2Key

namespace KeyPolling

/-- What a clock brings: whether the processor gets to the next access, what is on the bus between
two accesses, and the outputs of the receiver. -/
structure Ports where
  go : Bool
  s_address : BitVec 4
  s_writedata : BitVec 32
  ps2_data : BitVec 11
  ps2_data_valid : Bool

/-- An access is on the bus. -/
def active (s : KeyPolling) (i : Ports) : Bool := s.call.started || i.go

/-- The bus, as the keyboard sees it. -/
def bus (s : KeyPolling) (i : Ports) : Ps2Keyboard.Ports where
  clock_sreset := false
  s_address := if s.active i then s.call.next.offset else i.s_address
  s_writedata := if s.active i && s.call.next = .acknowledge then 0 else i.s_writedata
  s_read := s.active i && s.call.next ≠ .acknowledge
  s_write := s.active i && s.call.next = .acknowledge
  ps2_data := i.ps2_data
  ps2_data_valid := i.ps2_data_valid

/-- The access is told to wait. -/
def waits (s : KeyPolling) (i : Ports) : Bool := s.keyboard.s_waitrequest (s.bus i)

/-- One rising edge of `clock`. -/
def step (s : KeyPolling) (i : Ports) : KeyPolling where
  keyboard := s.keyboard.step (s.bus i)
  call := s.call.advance (s.active i) (s.waits i) s.keyboard.s_readdata

/-- The value with which a call returns at the edge. -/
def returned (s : KeyPolling) (i : Ports) : Option (BitVec 32) :=
  if s.active i && !s.waits i && s.call.next = .fetch then some s.keyboard.s_readdata else none

/-- The scancode that arrives at the edge. -/
def Ports.scancode (i : Ports) : Option (BitVec 8) :=
  if i.ps2_data_valid then some (i.ps2_data.extractLsb' 1 8) else none

/-- A read is in its second clock exactly if the processor has been told to wait. -/
structure Coherent (s : KeyPolling) : Prop where
  latency : s.keyboard.read_latency = s.call.started
  reading : s.call.started = true → s.call.next ≠ .acknowledge

/-- After a reset, before the first call. -/
structure Start (s : KeyPolling) : Prop where
  latency : s.keyboard.read_latency = false
  next : s.call.next = .acknowledge
  started : s.call.started = false

/-- The edge makes the write of a call. -/
def Acknowledges (s : KeyPolling) (i : Ports) : Prop :=
  s.active i = true ∧ s.call.next = .acknowledge

/-! ### One edge -/

section Edge

variable {s : KeyPolling} {i : Ports}

theorem Start.coherent (h : s.Start) : s.Coherent where
  latency := h.latency.trans h.started.symm
  reading := by
    intro hstarted
    rw [h.started] at hstarted
    cases hstarted

theorem bus_acknowledge : (s.bus i).Acknowledge ↔ s.Acknowledges i := by
  unfold Ps2Keyboard.Ports.Acknowledge Acknowledges bus
  cases ha : s.active i with
  | false => simp
  | true =>
      cases hn : s.call.next with
      | acknowledge => simp [Access.offset]
      | poll => simp
      | fetch => simp

theorem step_event_flag_of (h : ¬ s.Acknowledges i) :
    (s.step i).keyboard.event_flag = (i.ps2_data_valid || s.keyboard.event_flag) := by
  have hflag := Ps2Keyboard.step_event_flag s.keyboard (i := s.bus i) rfl
  rw [if_neg (fun ha => h (bus_acknowledge.mp ha))] at hflag
  exact hflag

theorem step_acknowledge (h : s.Acknowledges i) : (s.step i).keyboard.event_flag = false := by
  have hflag := Ps2Keyboard.step_event_flag s.keyboard (i := s.bus i) rfl
  rw [if_pos (bus_acknowledge.mpr h)] at hflag
  exact hflag

theorem step_data_reg :
    (s.step i).keyboard.data_reg = i.scancode.getD s.keyboard.data_reg := by
  have hreg := Ps2Keyboard.step_data_reg s.keyboard (i := s.bus i) rfl
  unfold Ports.scancode
  cases hv : i.ps2_data_valid with
  | true =>
      rw [if_pos (show (s.bus i).ps2_data_valid = true from hv)] at hreg
      exact hreg
  | false =>
      rw [if_neg (show ¬ (s.bus i).ps2_data_valid = true by simp [bus, hv])] at hreg
      exact hreg

/-- The first clock of a poll loads the flags: bit 1 is `event_flag`. -/
theorem step_poll (ha : s.active i = true) (hn : s.call.next = .poll) :
    (s.step i).keyboard.s_readdata &&& 2 = 0 ↔ s.keyboard.event_flag = false := by
  have hread := Ps2Keyboard.step_s_readdata s.keyboard (i := s.bus i) rfl
  rw [if_pos (show (s.bus i).s_address = 0 by simp [bus, ha, hn, Access.offset])] at hread
  have hbits : ∀ e q : Bool, (BitVec.ofBool e ++ BitVec.ofBool q).setWidth 32 &&& 2 = 0#32
      ↔ e = false := by decide
  rw [← hbits s.keyboard.event_flag s.keyboard.irq_flag, ← hread]
  rfl

/-- The first clock of a fetch loads the scancode. -/
theorem step_fetch (ha : s.active i = true) (hn : s.call.next = .fetch) :
    (s.step i).keyboard.s_readdata = s.keyboard.data_reg.setWidth 32 := by
  have hread := Ps2Keyboard.step_s_readdata s.keyboard (i := s.bus i) rfl
  have haddress : (s.bus i).s_address = 2 := by simp [bus, ha, hn, Access.offset]
  rw [if_neg (by rw [haddress]; decide), if_pos haddress] at hread
  exact hread

theorem active_eq : s.active i = (s.call.started || i.go) := rfl

/-- A read waits in its first clock. -/
theorem Coherent.waits (h : s.Coherent) :
    s.waits i = (s.active i && s.call.next ≠ .acknowledge && !s.call.started) := by
  have hlatency := h.latency
  unfold KeyPolling.waits Ps2Keyboard.s_waitrequest bus
  rw [hlatency]
  cases s.active i <;> cases s.call.next <;> cases s.call.started <;> rfl

theorem Coherent.step (h : s.Coherent) : (s.step i).Coherent := by
  have hlatency := Ps2Keyboard.step_read_latency s.keyboard (i := s.bus i) rfl
  have hwaits := h.waits (i := i)
  have hreading := h.reading
  rw [h.latency] at hlatency
  constructor
  · show (s.keyboard.step (s.bus i)).read_latency
      = (s.call.advance (s.active i) (s.waits i) s.keyboard.s_readdata).started
    rw [hlatency, hwaits]
    unfold WaitPs2Key.advance bus active
    cases hs : s.call.started <;> cases hg : i.go <;> cases hn : s.call.next <;>
      simp_all
  · show (s.call.advance (s.active i) (s.waits i) s.keyboard.s_readdata).started = true →
      (s.call.advance (s.active i) (s.waits i) s.keyboard.s_readdata).next ≠ .acknowledge
    rw [hwaits]
    unfold WaitPs2Key.advance active
    cases hs : s.call.started <;> cases hg : i.go <;> cases hn : s.call.next <;>
      simp_all

/-- Between two accesses. -/
theorem step_call_idle (ha : s.active i = false) : (s.step i).call = s.call := by
  show s.call.advance _ _ _ = _
  rw [ha]
  rfl

theorem Coherent.step_call_acknowledge (h : s.Coherent) (ha : s.Acknowledges i) :
    (s.step i).call = ⟨.poll, false⟩ := by
  show s.call.advance _ _ _ = _
  rw [h.waits, ha.1, ha.2]
  unfold WaitPs2Key.advance
  rw [ha.2]
  rfl

/-- The first clock of a read. -/
theorem Coherent.step_call_begin (h : s.Coherent) (ha : s.active i = true)
    (hn : s.call.next ≠ .acknowledge) (hs : s.call.started = false) :
    (s.step i).call = ⟨s.call.next, true⟩ := by
  show s.call.advance _ _ _ = _
  rw [h.waits, ha, hs]
  simp [WaitPs2Key.advance, hn]

/-- The second clock of a poll. -/
theorem Coherent.step_call_poll (h : s.Coherent) (hn : s.call.next = .poll)
    (hs : s.call.started = true) :
    (s.step i).call
      = ⟨if s.keyboard.s_readdata &&& 2 = 0 then .poll else .fetch, false⟩ := by
  show s.call.advance _ _ _ = _
  rw [h.waits, active_eq, hs]
  simp [WaitPs2Key.advance, hn]

/-- The second clock of a fetch. -/
theorem Coherent.step_call_fetch (h : s.Coherent) (hn : s.call.next = .fetch)
    (hs : s.call.started = true) : (s.step i).call = ⟨.acknowledge, false⟩ := by
  show s.call.advance _ _ _ = _
  rw [h.waits, active_eq, hs]
  simp [WaitPs2Key.advance, hn]

/-- A call returns in the second clock of a fetch. -/
theorem Coherent.returned (h : s.Coherent) :
    s.returned i = if s.call.next = .fetch ∧ s.call.started = true then
      some s.keyboard.s_readdata else none := by
  unfold KeyPolling.returned
  rw [h.waits]
  unfold active
  cases hs : s.call.started <;> cases i.go <;> cases hn : s.call.next <;> simp

end Edge

/-! ## What a call returns -/

section Returns

variable {s : KeyPolling} {u : ℕ → Ports}

/-- The scancode `c` arrived in clock `a`, and none came after it before clock `n`. -/
structure LastArrival (u : ℕ → Ports) (n a : ℕ) (c : BitVec 8) : Prop where
  before : a < n
  scancode : (u a).scancode = some c
  last : ∀ j, a < j → j < n → (u j).scancode = none

/-- The last arrival after clock `k` is in `data_reg`. -/
def Announced (u : ℕ → Ports) (k n : ℕ) (t : KeyPolling) : Prop :=
  ∃ a c, k < a ∧ LastArrival u n a c ∧ t.keyboard.data_reg = c

/-- Before clock `n` the processor is in a call, the one that acknowledged in clock `k`. -/
structure InCall (s : KeyPolling) (u : ℕ → Ports) (k n : ℕ) (t : KeyPolling) : Prop where
  before : k < n
  acknowledges : (run step s u k).Acknowledges (u k)
  calling : ∀ j, k < j → j ≤ n → (run step s u j).call.next ≠ .acknowledge
  flag : t.keyboard.event_flag = true → Announced u k n t
  polled : t.call.next = .poll → t.call.started = true → t.keyboard.s_readdata &&& 2 ≠ 0 →
    t.keyboard.event_flag = true
  fetch : t.call.next = .fetch → t.keyboard.event_flag = true
  fetched : t.call.next = .fetch → t.call.started = true →
    ∃ a c, k < a ∧ a + 1 < n ∧ LastArrival u (n - 1) a c ∧ t.keyboard.s_readdata = c.setWidth 32

/-- An edge keeps the last arrival in `data_reg`, or brings a new one. -/
theorem Announced.step {k n : ℕ} {t : KeyPolling} (hk : k < n)
    (h : Announced u k n t ∨ (u n).ps2_data_valid = true) :
    Announced u k (n + 1) (t.step (u n)) := by
  cases hv : (u n).scancode with
  | some c =>
      refine ⟨n, c, hk, ⟨Nat.lt_succ_self n, hv, fun j hj hjn => by omega⟩, ?_⟩
      rw [step_data_reg, hv]
      rfl
  | none =>
      rcases h with ⟨a, c, hka, hlast, hreg⟩ | hvalid
      · refine ⟨a, c, hka, ⟨Nat.lt_succ_of_lt hlast.before, hlast.scancode, ?_⟩, ?_⟩
        · intro j hj hjn
          by_cases hjn' : j = n
          · rw [hjn', hv]
          · exact hlast.last j hj (by omega)
        · rw [step_data_reg, hv]
          exact hreg
      · unfold Ports.scancode at hv
        rw [if_pos hvalid] at hv
        cases hv

theorem announced_of_flag {k n : ℕ} {t : KeyPolling} (hk : k < n)
    (hflag : t.keyboard.event_flag = true → Announced u k n t)
    (h : (u n).ps2_data_valid = true ∨ t.keyboard.event_flag = true) :
    Announced u k (n + 1) (t.step (u n)) := by
  rcases h with hvalid | hset
  · exact Announced.step hk (Or.inr hvalid)
  · exact Announced.step hk (Or.inl (hflag hset))

/-- Within a call the flag stays up. -/
theorem InCall.step_event_flag {k n : ℕ} (h : InCall s u k n (run step s u n)) :
    (run step s u (n + 1)).keyboard.event_flag
      = ((u n).ps2_data_valid || (run step s u n).keyboard.event_flag) :=
  step_event_flag_of (fun ha => h.calling n h.before (le_refl n) ha.2)

/-- An edge within a call, whatever it does with the access on the bus. -/
theorem InCall.succ {k n : ℕ} (h : InCall s u k n (run step s u n))
    (hnext : (run step s u (n + 1)).call.next ≠ .acknowledge)
    (hpolled : (run step s u (n + 1)).call.next = .poll →
      (run step s u (n + 1)).call.started = true →
      (run step s u (n + 1)).keyboard.s_readdata &&& 2 ≠ 0 →
      (run step s u n).keyboard.event_flag = true)
    (hfetch : (run step s u (n + 1)).call.next = .fetch →
      (run step s u n).keyboard.event_flag = true)
    (hfetched : (run step s u (n + 1)).call.next = .fetch →
      (run step s u (n + 1)).call.started = true →
      (run step s u (n + 1)).keyboard.s_readdata
        = (run step s u n).keyboard.data_reg.setWidth 32) :
    InCall s u k (n + 1) (run step s u (n + 1)) := by
  have hflag := h.step_event_flag
  refine ⟨Nat.lt_succ_of_lt h.before, h.acknowledges, ?_, ?_, ?_, ?_, ?_⟩
  · intro j hj hjn
    by_cases hjn' : j = n + 1
    · rw [hjn']
      exact hnext
    · exact h.calling j hj (by omega)
  · intro hset
    rw [hflag, Bool.or_eq_true] at hset
    exact announced_of_flag h.before h.flag hset
  · intro hp hs hr
    rw [hflag, hpolled hp hs hr, Bool.or_true]
  · intro hf
    rw [hflag, hfetch hf, Bool.or_true]
  · intro hf hs
    obtain ⟨a, c, hka, hlast, hreg⟩ := h.flag (hfetch hf)
    have hlt := hlast.before
    exact ⟨a, c, hka, by omega, hlast, by rw [hfetched hf hs, hreg]⟩

/-- Between two calls, or in one. -/
def Situation (s : KeyPolling) (u : ℕ → Ports) (n : ℕ) : Prop :=
  (run step s u n).Coherent ∧
    ((run step s u n).call.next = .acknowledge ∨ ∃ k, InCall s u k n (run step s u n))

theorem situation_succ {n : ℕ} (h : Situation s u n) : Situation s u (n + 1) := by
  obtain ⟨hco, hcase⟩ := h
  refine ⟨hco.step, ?_⟩
  rcases hcase with hack | ⟨k, hcall⟩
  · cases hactive : (run step s u n).active (u n) with
    | false =>
        left
        rw [run_succ, step_call_idle hactive, hack]
    | true =>
        -- the write of a call
        right
        have hw : (run step s u n).Acknowledges (u n) := ⟨hactive, hack⟩
        have hnext := hco.step_call_acknowledge hw
        have hflag := step_acknowledge hw
        refine ⟨n, Nat.lt_succ_self n, hw, ?_, ?_, ?_, ?_, ?_⟩
        · intro j hj hjn
          rw [show j = n + 1 by omega, run_succ, hnext]
          decide
        · intro hset
          rw [run_succ, hflag] at hset
          cases hset
        · intro _ hstarted
          rw [run_succ, hnext] at hstarted
          cases hstarted
        · intro hfetch
          rw [run_succ, hnext] at hfetch
          cases hfetch
        · intro hfetch
          rw [run_succ, hnext] at hfetch
          cases hfetch
  · have hne := hcall.calling n hcall.before (le_refl n)
    cases hs : (run step s u n).call.started with
    | true =>
        cases hn : (run step s u n).call.next with
        | acknowledge => exact absurd hn hne
        | poll =>
            -- the flag as the poll has read it
            right
            have hnext := hco.step_call_poll (i := u n) hn hs
            refine ⟨k, hcall.succ ?_ ?_ ?_ ?_⟩
            · rw [run_succ, hnext]
              dsimp only
              split_ifs <;> decide
            · intro _ hstarted
              rw [run_succ, hnext] at hstarted
              cases hstarted
            · intro hfetch
              rw [run_succ, hnext] at hfetch
              apply hcall.polled hn hs
              intro hzero
              rw [if_pos hzero] at hfetch
              cases hfetch
            · intro _ hstarted
              rw [run_succ, hnext] at hstarted
              cases hstarted
        | fetch =>
            -- the call returns
            left
            rw [run_succ, hco.step_call_fetch hn hs]
    | false =>
        right
        cases hactive : (run step s u n).active (u n) with
        | false =>
            have hnext := step_call_idle hactive
            refine ⟨k, hcall.succ ?_ ?_ ?_ ?_⟩
            · rw [run_succ, hnext]
              exact hne
            · intro _ hstarted
              rw [run_succ, hnext, hs] at hstarted
              cases hstarted
            · intro hfetch
              rw [run_succ, hnext] at hfetch
              exact hcall.fetch hfetch
            · intro _ hstarted
              rw [run_succ, hnext, hs] at hstarted
              cases hstarted
        | true =>
            -- the first clock of a read
            have hnext := hco.step_call_begin hactive hne hs
            refine ⟨k, hcall.succ ?_ ?_ ?_ ?_⟩
            · rw [run_succ, hnext]
              exact hne
            · intro hpoll _ hread
              rw [run_succ, hnext] at hpoll
              by_contra hflag
              exact hread ((step_poll hactive hpoll).mpr (Bool.not_eq_true _ ▸ hflag))
            · intro hfetch
              rw [run_succ, hnext] at hfetch
              exact hcall.fetch hfetch
            · intro hfetch _
              rw [run_succ, hnext] at hfetch
              exact step_fetch hactive hfetch

theorem situation (h : s.Start) (n : ℕ) : Situation s u n := by
  induction n with
  | zero => exact ⟨h.coherent, Or.inl h.next⟩
  | succ n ih => exact situation_succ ih

/-- **What a call returns.** Whatever the processor does between its accesses, and whenever keys are
pressed: a call returns a scancode that arrived after the call's own write, and the last one that
arrived before the first clock of its last read. -/
theorem returned_key (s : KeyPolling) (h : s.Start) (u : ℕ → Ports) (n : ℕ) (x : BitVec 32)
    (hx : (run step s u n).returned (u n) = some x) :
    ∃ k a c, k < a ∧ a + 1 < n ∧ (run step s u k).Acknowledges (u k) ∧
      (∀ j, k < j → j ≤ n → (run step s u j).call.next ≠ .acknowledge) ∧
      (u a).scancode = some c ∧ (∀ j, a < j → j + 1 < n → (u j).scancode = none) ∧
      x = c.setWidth 32 := by
  obtain ⟨hco, hcase⟩ := situation h (u := u) n
  rw [hco.returned] at hx
  split_ifs at hx with hfetch
  rcases hcase with hack | ⟨k, hcall⟩
  · rw [hack] at hfetch
    cases hfetch.1
  · obtain ⟨a, c, hka, han, hlast, hread⟩ := hcall.fetched hfetch.1 hfetch.2
    refine ⟨k, a, c, hka, han, hcall.acknowledges, hcall.calling, hlast.scancode, ?_, ?_⟩
    · exact fun j hj hjn => hlast.last j hj (by omega)
    · rw [← hread]
      exact (Option.some.inj hx).symm

end Returns

/-! ### One key -/

def start : KeyPolling where
  keyboard := Ps2Keyboard.poweredUp
  call := { next := .acknowledge, started := false }

/-- The processor is always ready for the next access, and `+` is pressed in clock 5. -/
def plusPressed (n : ℕ) : Ports where
  go := true
  s_address := 0
  s_writedata := 0
  ps2_data := 0x6aa
  ps2_data_valid := decide (n = 5)

theorem returned_key_plus :
    ∃ a c, a + 1 < 10 ∧ (plusPressed a).scancode = some c ∧ (0x55 : BitVec 32) = c.setWidth 32 := by
  obtain ⟨k, a, c, -, ha, -, -, hc, -, hx⟩ :=
    returned_key start ⟨rfl, rfl, rfl⟩ plusPressed 10 0x55 (by decide)
  exact ⟨a, c, ha, hc, hx⟩

/-! ## No key lost

The processor comes to its next access within `D` clocks, between two calls as well. -/

/-- A bound on the clocks until the write of the next call, once the flag is set; `wait` is the time
until the processor gets to its next access. -/
def remaining (D wait : ℕ) (t : KeyPolling) : ℕ :=
  match t.call.next, t.call.started with
  | .acknowledge, _ => wait + 1
  | .fetch, true => D + 2
  | .fetch, false => wait + D + 3
  | .poll, false => wait + 2 * D + 5
  -- a poll that has read the flag too early is made once more
  | .poll, true => if t.keyboard.s_readdata &&& 2 = 0 then 3 * D + 6 else 2 * D + 4

section Remaining

variable {D w w' : ℕ} {t : KeyPolling} {i : Ports}

theorem remaining_pos : 1 ≤ t.remaining D w := by
  unfold remaining
  split <;> (try split_ifs) <;> omega

theorem remaining_le (hw : w ≤ D) : t.remaining D w ≤ 3 * D + 6 := by
  unfold remaining
  split <;> (try split_ifs) <;> omega

/-- Every edge brings the write nearer. -/
theorem Coherent.step_remaining (hco : t.Coherent) (hw' : w' ≤ D)
    (hgo : i.go = true ∨ w' + 1 ≤ w) (hflag : t.keyboard.event_flag = true)
    (hack : ¬ t.Acknowledges i) : (t.step i).remaining D w' + 1 ≤ t.remaining D w := by
  cases hs : t.call.started with
  | true =>
      cases hn : t.call.next with
      | acknowledge => exact absurd hn (hco.reading hs)
      | poll =>
          unfold remaining
          rw [hco.step_call_poll hn hs, hn, hs]
          by_cases hr : t.keyboard.s_readdata &&& 2 = 0
          · rw [if_pos hr, if_pos hr]
            dsimp only
            omega
          · rw [if_neg hr, if_neg hr]
            dsimp only
            omega
      | fetch =>
          unfold remaining
          rw [hco.step_call_fetch hn hs, hn, hs]
          dsimp only
          omega
  | false =>
      cases hactive : t.active i with
      | false =>
          -- the processor has not come to its next access yet
          have hwait : w' + 1 ≤ w := by
            rcases hgo with hgo | hwait
            · rw [active_eq, hs, hgo] at hactive
              cases hactive
            · exact hwait
          unfold remaining
          rw [step_call_idle hactive, hs]
          cases t.call.next <;> dsimp only <;> omega
      | true =>
          cases hn : t.call.next with
          | acknowledge => exact absurd ⟨hactive, hn⟩ hack
          | poll =>
              have hread : ¬ (t.step i).keyboard.s_readdata &&& 2 = 0 := by
                rw [step_poll hactive hn, hflag]
                decide
              unfold remaining
              rw [hco.step_call_begin hactive (by simp [hn]) hs, hn, hs]
              dsimp only
              rw [if_neg hread]
              omega
          | fetch =>
              unfold remaining
              rw [hco.step_call_begin hactive (by simp [hn]) hs, hn, hs]
              dsimp only
              omega

end Remaining

/-- The scancodes that have arrived by the first `n` edges, as values of `int`. -/
def keys (u : ℕ → Ports) (n : ℕ) : List (BitVec 32) :=
  (events (fun k => (u k).scancode) n).map (BitVec.setWidth 32)

/-- The values with which calls have returned by the first `n` edges. -/
def returns (s : KeyPolling) (u : ℕ → Ports) (n : ℕ) : List (BitVec 32) :=
  events (fun k => (run step s u k).returned (u k)) n

/-- All keys are returned and the processor polls; or all are returned and the next call comes by
clock `T`; or the key of clock `a` is on its way. In the last two cases no key comes too early. -/
inductive Progress (D : ℕ) (wait : ℕ → ℕ) (s : KeyPolling) (u : ℕ → Ports) (n : ℕ)
    (t : KeyPolling) : Prop
  | listening (hr : returns s u n = keys u n) (hn : t.call.next = .poll)
      (hflag : t.keyboard.event_flag = false)
      (hread : t.call.started = true → t.keyboard.s_readdata &&& 2 = 0)
  | done (T : ℕ) (hr : returns s u n = keys u n) (hn : t.call.next = .acknowledge)
      (hT : n + t.remaining D (wait n) ≤ T) (hq : ∀ b, n ≤ b → (u b).scancode ≠ none → T ≤ b)
  | pending (a : ℕ) (c : BitVec 8) (hk : keys u n = returns s u n ++ [c.setWidth 32])
      (hn : t.call.next ≠ .acknowledge) (hflag : t.keyboard.event_flag = true)
      (hreg : t.keyboard.data_reg = c)
      (hfetch : t.call.next = .fetch → t.call.started = true →
        t.keyboard.s_readdata = c.setWidth 32)
      (ha : a < n) (hkey : (u a).scancode ≠ none) (hT : n + t.remaining D (wait n) ≤ a + 3 * D + 7)
      (hq : ∀ b, n ≤ b → (u b).scancode ≠ none → a + 3 * D + 7 ≤ b)

section Delivery

variable {D : ℕ} {wait : ℕ → ℕ} {s : KeyPolling} {u : ℕ → Ports}

theorem keys_succ (u : ℕ → Ports) (n : ℕ) :
    keys u (n + 1) = keys u n ++ ((u n).scancode.map (BitVec.setWidth 32)).toList := by
  unfold keys
  rw [events_succ, List.map_append]
  cases (u n).scancode <;> rfl

theorem returns_succ (s : KeyPolling) (u : ℕ → Ports) (n : ℕ) :
    returns s u (n + 1) = returns s u n ++ ((run step s u n).returned (u n)).toList := rfl

theorem valid_eq (i : Ports) : i.ps2_data_valid = i.scancode.isSome := by
  unfold Ports.scancode
  cases i.ps2_data_valid <;> rfl

/-- While the processor polls and the flag is down, it goes on polling. -/
theorem Coherent.step_listening {t : KeyPolling} {i : Ports} (hco : t.Coherent)
    (hn : t.call.next = .poll) (hflag : t.keyboard.event_flag = false)
    (hread : t.call.started = true → t.keyboard.s_readdata &&& 2 = 0) :
    (t.step i).call.next = .poll ∧
      ((t.step i).call.started = true → (t.step i).keyboard.s_readdata &&& 2 = 0) := by
  cases hs : t.call.started with
  | true =>
      rw [hco.step_call_poll hn hs, if_pos (hread hs)]
      exact ⟨rfl, fun h => by cases h⟩
  | false =>
      cases hactive : t.active i with
      | false =>
          rw [step_call_idle hactive, hs]
          exact ⟨hn, fun h => by cases h⟩
      | true =>
          rw [hco.step_call_begin hactive (by simp [hn]) hs]
          exact ⟨hn, fun _ => (step_poll hactive hn).mpr hflag⟩

/-- While a key is on its way, the processor goes on with the call until it returns the key. -/
theorem Coherent.step_pending {t : KeyPolling} {i : Ports} (hco : t.Coherent)
    (hn : t.call.next ≠ .acknowledge) (hret : ¬ (t.call.next = .fetch ∧ t.call.started = true)) :
    (t.step i).call.next ≠ .acknowledge ∧
      ((t.step i).call.next = .fetch → (t.step i).call.started = true →
        (t.step i).keyboard.s_readdata = t.keyboard.data_reg.setWidth 32) := by
  cases hs : t.call.started with
  | true =>
      have hpoll : t.call.next = .poll := by
        cases hnext : t.call.next with
        | acknowledge => exact absurd hnext hn
        | poll => rfl
        | fetch => exact absurd ⟨hnext, hs⟩ hret
      rw [hco.step_call_poll hpoll hs]
      refine ⟨?_, fun _ h => by cases h⟩
      dsimp only
      split_ifs <;> decide
  | false =>
      cases hactive : t.active i with
      | false =>
          rw [step_call_idle hactive, hs]
          exact ⟨hn, fun _ h => by cases h⟩
      | true =>
          rw [hco.step_call_begin hactive hn hs]
          exact ⟨hn, fun hfetch _ => step_fetch hactive hfetch⟩

theorem Progress.succ {n : ℕ} (hwait : ∀ n, wait n ≤ D)
    (hgo : ∀ n, (u n).go = true ∨ wait (n + 1) + 1 ≤ wait n)
    (hspaced : ∀ a b, (u a).scancode ≠ none → (u b).scancode ≠ none → a < b → a + 3 * D + 7 ≤ b)
    (hco : (run step s u n).Coherent) (h : Progress D wait s u n (run step s u n)) :
    Progress D wait s u (n + 1) (run step s u (n + 1)) := by
  have hkeys := keys_succ u n
  have hreturns := returns_succ s u n
  have hvalid := valid_eq (u n)
  rw [hco.returned] at hreturns
  cases h with
  | listening hr hn hflag hread =>
      have hack : ¬ (run step s u n).Acknowledges (u n) := by
        rintro ⟨-, hack⟩
        rw [hn] at hack
        cases hack
      have hnext := hco.step_listening (i := u n) hn hflag hread
      have hflag' := step_event_flag_of hack
      rw [if_neg (fun hf => by rw [hn] at hf; cases hf.1), Option.toList_none,
        List.append_nil] at hreturns
      cases hc : (u n).scancode with
      | none =>
          rw [hc, Option.map_none, Option.toList_none, List.append_nil] at hkeys
          rw [hvalid, hc, hflag] at hflag'
          exact .listening (by rw [hreturns, hkeys, hr]) hnext.1 hflag' hnext.2
      | some c =>
          -- a key arrives
          have hne : (u n).scancode ≠ none := by simp [hc]
          rw [hc, Option.map_some, Option.toList_some] at hkeys
          rw [hvalid, hc] at hflag'
          have hle : (run step s u (n + 1)).remaining D (wait (n + 1)) ≤ 3 * D + 6 :=
            remaining_le (hwait (n + 1))
          refine .pending n c (by rw [hkeys, hreturns, hr]) ?_ ?_ ?_ ?_ (Nat.lt_succ_self n) hne
            (by omega) ?_
          · rw [run_succ, hnext.1]
            decide
          · rw [run_succ, hflag']
            rfl
          · rw [run_succ, step_data_reg, hc]
            rfl
          · intro hf
            rw [run_succ, hnext.1] at hf
            cases hf
          · intro b hb hkey
            exact hspaced n b hne hkey (by omega)
  | done T hr hn hT hq =>
      -- the next key does not come before the call
      have hpos : 1 ≤ (run step s u n).remaining D (wait n) := remaining_pos
      have hc : (u n).scancode = none := by
        by_contra hkey
        have := hq n (le_refl n) hkey
        omega
      rw [hc, Option.map_none, Option.toList_none, List.append_nil] at hkeys
      rw [if_neg (fun hf => by rw [hn] at hf; cases hf.1), Option.toList_none,
        List.append_nil] at hreturns
      have hr' : returns s u (n + 1) = keys u (n + 1) := by rw [hreturns, hkeys, hr]
      by_cases hactive : (run step s u n).active (u n) = true
      · have hack : (run step s u n).Acknowledges (u n) := ⟨hactive, hn⟩
        have hnext := hco.step_call_acknowledge hack
        refine .listening hr' ?_ (step_acknowledge hack) ?_
        · rw [run_succ, hnext]
        · intro hstarted
          rw [run_succ, hnext] at hstarted
          cases hstarted
      · have hidle : (run step s u n).active (u n) = false := Bool.not_eq_true _ ▸ hactive
        have hcall := step_call_idle hidle
        have hnext : (run step s u (n + 1)).call.next = .acknowledge := by
          rw [run_succ, hcall, hn]
        have hw : wait (n + 1) + 1 ≤ wait n := by
          rcases hgo n with hgo | hw
          · rw [active_eq, hgo, Bool.or_true] at hidle
            cases hidle
          · exact hw
        have hrem : ∀ {t : KeyPolling} {w : ℕ}, t.call.next = .acknowledge →
            t.remaining D w = w + 1 := by
          intro t w ht
          unfold remaining
          rw [ht]
        rw [hrem hn] at hT
        refine .done T hr' hnext ?_ (fun b hb => hq b (by omega))
        rw [hrem hnext]
        omega
  | pending a c hk hn hflag hreg hfetch ha hkey hT hq =>
      have hack : ¬ (run step s u n).Acknowledges (u n) := fun hack => hn hack.2
      have hpos : 1 ≤ (run step s u n).remaining D (wait n) := remaining_pos
      have hc : (u n).scancode = none := by
        by_contra hkey'
        have := hq n (le_refl n) hkey'
        omega
      have hrem := hco.step_remaining (hwait (n + 1)) (hgo n) hflag hack
      rw [hc, Option.map_none, Option.toList_none, List.append_nil] at hkeys
      by_cases hret : (run step s u n).call.next = .fetch ∧ (run step s u n).call.started = true
      · -- the call returns the key
        rw [if_pos hret, hfetch hret.1 hret.2, Option.toList_some] at hreturns
        refine .done (a + 3 * D + 7) (by rw [hreturns, hkeys, hk]) ?_ ?_
          (fun b hb => hq b (by omega))
        · rw [run_succ, hco.step_call_fetch hret.1 hret.2]
        · rw [run_succ]
          omega
      · have hnext := hco.step_pending (i := u n) hn hret
        rw [if_neg hret, Option.toList_none, List.append_nil] at hreturns
        refine .pending a c (by rw [hreturns, hkeys, hk]) hnext.1 ?_ ?_ ?_ (by omega) hkey ?_
          (fun b hb => hq b (by omega))
        · rw [run_succ, step_event_flag_of hack, hflag, Bool.or_true]
        · rw [run_succ, step_data_reg, hc, hreg]
          rfl
        · intro hf hs
          rw [run_succ, hnext.2 hf hs, hreg]
        · rw [run_succ]
          omega

/-- What the progress says about the keys. -/
theorem Progress.returns_eq {n : ℕ} {t : KeyPolling} (h : Progress D wait s u n t) :
    returns s u n = keys u n ∨
      (∃ a < n, n ≤ a + 3 * D + 6 ∧ (u a).scancode ≠ none) ∧
        returns s u n = (keys u n).dropLast := by
  cases h with
  | listening hr _ _ _ => exact Or.inl hr
  | done _ hr _ _ _ => exact Or.inl hr
  | pending a c hk _ _ _ _ ha hkey hT _ =>
      right
      have hpos : 1 ≤ t.remaining D (wait n) := remaining_pos
      exact ⟨⟨a, ha, by omega, hkey⟩, by rw [hk, List.dropLast_concat]⟩

theorem run_progress (h : s.Start) (hwait : ∀ n, wait n ≤ D)
    (hgo : ∀ n, (u n).go = true ∨ wait (n + 1) + 1 ≤ wait n)
    (hfirst : ∀ a, (u a).scancode ≠ none → wait 0 + 1 ≤ a)
    (hspaced : ∀ a b, (u a).scancode ≠ none → (u b).scancode ≠ none → a < b → a + 3 * D + 7 ≤ b)
    (n : ℕ) : Progress D wait s u n (run step s u n) := by
  induction n with
  | zero =>
      refine .done (wait 0 + 1) rfl h.next ?_ (fun b _ => hfirst b)
      unfold remaining
      rw [run_zero, h.next, Nat.zero_add]
  | succ n ih => exact ih.succ hwait hgo hspaced (situation h n).1

/-- **No key lost.** If the processor gets to its next access within `D` clocks, and keys are at
least `3 D + 7` clocks apart, the first one after the write with which the first call begins, then
every key is returned by exactly one call, in order, and within `3 D + 6` clocks. -/
theorem no_key_lost (s : KeyPolling) (h : s.Start) (u : ℕ → Ports) (D : ℕ)
    (hgo : ∀ n, ∃ j, n ≤ j ∧ j ≤ n + D ∧ (u j).go = true)
    (hfirst : ∀ a, (u a).scancode ≠ none → ∃ k < a, (u k).go = true)
    (hspaced : ∀ a b, (u a).scancode ≠ none → (u b).scancode ≠ none → a < b → a + 3 * D + 7 ≤ b)
    (n : ℕ) :
    returns s u n = keys u n ∨
      (∃ a < n, n ≤ a + 3 * D + 6 ∧ (u a).scancode ≠ none) ∧
        returns s u n = (keys u n).dropLast := by
  obtain ⟨wait, hwait, hnext, hover⟩ := exists_wait hgo
  refine (run_progress h hwait hnext ?_ hspaced n).returns_eq
  intro a ha
  obtain ⟨k, hk, hgo'⟩ := hfirst a ha
  have hle := hover 0 k (by rwa [Nat.zero_add])
  omega

end Delivery

theorem no_key_lost_plus : returns start plusPressed 20 = [0x55] := by
  have hkey : ∀ a, (plusPressed a).scancode ≠ none → a = 5 := by
    intro a h
    by_contra hne
    exact h (by simp [plusPressed, Ports.scancode, hne])
  have hdelivered := no_key_lost start ⟨rfl, rfl, rfl⟩ plusPressed 0
    (fun n => ⟨n, le_refl n, le_refl n, rfl⟩)
    (fun a ha => ⟨0, by have := hkey a ha; omega, rfl⟩)
    (fun a b ha hb hab => by have := hkey a ha; have := hkey b hb; omega) 20
  rw [show keys plusPressed 20 = [0x55] by decide] at hdelivered
  rcases hdelivered with hall | ⟨⟨a, -, hle, ha⟩, -⟩
  · exact hall
  · have := hkey a ha
    omega

end KeyPolling

end OneBitSDR
