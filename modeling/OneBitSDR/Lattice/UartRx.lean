import OneBitSDR.Clocked.Counter
import OneBitSDR.Clocked.Delivers

set_option autoImplicit false

/-! # `UartRX.v`: the serial receiver of the Lattice design

Three parts with two clocks. The registers clocked by `UartClk[2]`, one edge in eight of
`osc_clk`, are the synchroniser of the serial line and the state machine. The machine looks for
a low line, looks again in the middle of the start bit, and then samples a bit every
`CLKS_PER_BIT` ticks. Its `r_Rx_DV` is high for one tick, which is eight clocks of `osc_clk`, and
the edge detector in the domain of `osc_clk` makes one clock of it.
-/

namespace OneBitSDR

open Clocked

/-! ## The state machine -/

/-- The values of `r_SM_Main` that the machine takes. -/
inductive UartState
  | s_IDLE
  | s_RX_START_BIT
  | s_RX_DATA_BITS
  | s_RX_STOP_BIT
  | s_CLEANUP
  deriving DecidableEq

/-- The registers that the state machine assigns. -/
structure UartFsm where
  r_SM_Main : UartState
  r_Clock_Count : BitVec 16
  r_Bit_Index : BitVec 3
  r_Rx_Byte : BitVec 8
  r_Rx_DV : Bool
  o_Rx_Byte : BitVec 8

namespace UartFsm

/-- `r_Rx_Byte[r_Bit_Index] <= r_Rx_Data`. -/
def setBit (b : BitVec 8) (i : BitVec 3) (d : Bool) : BitVec 8 :=
  if d then b ||| (1#8 <<< i.toNat) else b &&& ~~~(1#8 <<< i.toNat)

/-- One rising edge of `UartClk[2]`. -/
def step (CLKS_PER_BIT : ℕ) (m : UartFsm) (r_Rx_Data : Bool) : UartFsm :=
  match m.r_SM_Main with
  | .s_IDLE =>
      { m with
        r_Rx_DV := false
        r_Clock_Count := 0
        r_Bit_Index := 0
        r_SM_Main := if r_Rx_Data = false then .s_RX_START_BIT else .s_IDLE }
  | .s_RX_START_BIT =>
      -- a line that is high again in the middle of the start bit was a glitch
      if m.r_Clock_Count.toNat = (CLKS_PER_BIT - 1) / 2 then
        if r_Rx_Data = false then
          { m with r_Clock_Count := 0, r_SM_Main := .s_RX_DATA_BITS }
        else { m with r_SM_Main := .s_IDLE }
      else
        { m with r_Clock_Count := m.r_Clock_Count + 1, r_SM_Main := .s_RX_START_BIT }
  | .s_RX_DATA_BITS =>
      if m.r_Clock_Count.toNat < CLKS_PER_BIT - 1 then
        { m with r_Clock_Count := m.r_Clock_Count + 1, r_SM_Main := .s_RX_DATA_BITS }
      else
        { m with
          r_Clock_Count := 0
          r_Rx_Byte := setBit m.r_Rx_Byte m.r_Bit_Index r_Rx_Data
          r_Bit_Index := if m.r_Bit_Index.toNat < 7 then m.r_Bit_Index + 1 else 0
          r_SM_Main := if m.r_Bit_Index.toNat < 7 then .s_RX_DATA_BITS else .s_RX_STOP_BIT }
  -- the stop bit is waited for, but its level is not looked at
  | .s_RX_STOP_BIT =>
      if m.r_Clock_Count.toNat < CLKS_PER_BIT - 1 then
        { m with r_Clock_Count := m.r_Clock_Count + 1, r_SM_Main := .s_RX_STOP_BIT }
      else
        { m with
          r_Rx_DV := true
          o_Rx_Byte := m.r_Rx_Byte
          r_Clock_Count := 0
          r_SM_Main := .s_CLEANUP }
  | .s_CLEANUP => { m with r_SM_Main := .s_IDLE, r_Rx_DV := false }

/-- A tick that raises `r_Rx_DV` delivers the byte in `o_Rx_Byte`. -/
def emits (CLKS_PER_BIT : ℕ) (m : UartFsm) (r_Rx_Data : Bool) : Option (BitVec 8) :=
  if (m.step CLKS_PER_BIT r_Rx_Data).r_Rx_DV && !m.r_Rx_DV then
    some (m.step CLKS_PER_BIT r_Rx_Data).o_Rx_Byte
  else none

theorem getLsbD_setBit (b : BitVec 8) (i : BitVec 3) (d : Bool) {k : ℕ} (hk : k < 8) :
    (setBit b i d).getLsbD k = if k = i.toNat then d else b.getLsbD k := by
  have hone : (1#8 <<< i.toNat).getLsbD k = decide (k = i.toNat) := by
    rw [BitVec.getLsbD_shiftLeft, BitVec.getLsbD_one]
    by_cases h : k = i.toNat
    · simp [h, i.isLt]
    · have h' : ¬ (¬ k < i.toNat ∧ k - i.toNat = 0) := by omega
      simp [h, hk]
      omega
  unfold setBit
  cases d with
  | true =>
      rw [if_pos rfl, BitVec.getLsbD_or, hone]
      by_cases h : k = i.toNat <;> simp [h]
  | false =>
      rw [if_neg Bool.false_ne_true, BitVec.getLsbD_and, BitVec.getLsbD_not, hone]
      by_cases h : k = i.toNat <;> simp [h, hk]

/-! ## Ticks

What one tick does in each situation of a frame. -/

/-- The machine waits for a start bit. -/
def Idle (m : UartFsm) : Prop := m.r_SM_Main = .s_IDLE ∧ m.r_Rx_DV = false

/-- The machine is in `state`, has counted `k` ticks there, and has stored the first `i` bits
of the byte `b`. -/
structure Counting (b : BitVec 8) (state : UartState) (i k : ℕ) (m : UartFsm) : Prop where
  state_eq : m.r_SM_Main = state
  count : m.r_Clock_Count.toNat = k
  index : m.r_Bit_Index.toNat = i % 8
  bits : ∀ j < i, m.r_Rx_Byte.getLsbD j = b.getLsbD j
  quiet : m.r_Rx_DV = false

section Ticks

variable {C : ℕ} {b : BitVec 8} {m : UartFsm} {d : Bool} {i k : ℕ}

theorem emits_quiet (h : (m.step C d).r_Rx_DV = false) : emits C m d = none := by
  unfold emits
  rw [h]
  rfl

theorem toNat_count_succ (c : BitVec 16) (h : c.toNat + 1 < 2 ^ 16) :
    (c + 1).toNat = c.toNat + 1 := by
  rw [BitVec.toNat_add]
  exact Nat.mod_eq_of_lt h

theorem Idle.high (h : Idle m) : Idle (m.step C true) := by
  unfold step
  rw [h.1]
  exact ⟨rfl, rfl⟩

theorem Idle.low (h : Idle m) (b : BitVec 8) : Counting b .s_RX_START_BIT 0 0 (m.step C false) := by
  unfold step
  rw [h.1]
  exact ⟨rfl, rfl, rfl, fun j hj => by omega, rfl⟩

/-- One more tick in the same state. -/
theorem Counting.next {state : UartState} (h : Counting b state i k m) (hk : k + 1 < 2 ^ 16) :
    Counting b state i (k + 1)
      { m with r_Clock_Count := m.r_Clock_Count + 1, r_SM_Main := state } := by
  have hcount := h.count
  refine ⟨rfl, ?_, h.index, h.bits, h.quiet⟩
  dsimp only
  rw [toNat_count_succ _ (by omega), hcount]

/-- In the start bit. -/
theorem Counting.start (h : Counting b .s_RX_START_BIT i k m) (hC : C ≤ 2 ^ 16)
    (hk : k < (C - 1) / 2) : Counting b .s_RX_START_BIT i (k + 1) (m.step C d) := by
  have hcount := h.count
  unfold step
  rw [h.state_eq]
  dsimp only
  rw [if_neg (by omega)]
  exact h.next (by omega)

/-- In the middle of the start bit the line is still low. -/
theorem Counting.found (h : Counting b .s_RX_START_BIT i ((C - 1) / 2) m) :
    Counting b .s_RX_DATA_BITS i 0 (m.step C false) := by
  unfold step
  rw [h.state_eq]
  dsimp only
  rw [if_pos h.count, if_pos rfl]
  exact ⟨rfl, rfl, h.index, h.bits, h.quiet⟩

theorem Counting.data (h : Counting b .s_RX_DATA_BITS i k m) (hC : C ≤ 2 ^ 16)
    (hk : k < C - 1) : Counting b .s_RX_DATA_BITS i (k + 1) (m.step C d) := by
  have hcount := h.count
  unfold step
  rw [h.state_eq]
  dsimp only
  rw [if_pos (by omega)]
  exact h.next (by omega)

/-- Bit `i` is sampled; after bit 7 the machine goes on to the stop bit. -/
theorem Counting.sample (h : Counting b .s_RX_DATA_BITS i (C - 1) m) (hi : i < 8)
    (hd : d = b.getLsbD i) :
    Counting b (if i < 7 then .s_RX_DATA_BITS else .s_RX_STOP_BIT) (i + 1) 0 (m.step C d) := by
  have hcount := h.count
  have hindex := h.index
  rw [Nat.mod_eq_of_lt hi] at hindex
  have hfull : ¬ m.r_Clock_Count.toNat < C - 1 := by omega
  unfold step
  rw [h.state_eq]
  dsimp only
  rw [if_neg hfull]
  refine ⟨?_, rfl, ?_, ?_, h.quiet⟩
  · dsimp only
    rw [hindex]
  · dsimp only
    rw [hindex]
    by_cases h7 : i < 7
    · rw [if_pos h7, BitVec.toNat_add, hindex]
      rfl
    · rw [if_neg h7, show i = 7 by omega]
      rfl
  · intro j hj
    dsimp only
    rw [getLsbD_setBit _ _ _ (by omega), hindex]
    by_cases hji : j = i
    · rw [if_pos hji, hd, hji]
    · rw [if_neg hji]
      exact h.bits j (by omega)

theorem Counting.stop (h : Counting b .s_RX_STOP_BIT i k m) (hC : C ≤ 2 ^ 16)
    (hk : k < C - 1) : Counting b .s_RX_STOP_BIT i (k + 1) (m.step C d) := by
  have hcount := h.count
  unfold step
  rw [h.state_eq]
  dsimp only
  rw [if_pos (by omega)]
  exact h.next (by omega)

/-- The end of the stop bit delivers the byte. -/
theorem Counting.deliver (h : Counting b .s_RX_STOP_BIT 8 (C - 1) m) :
    (m.step C d).r_SM_Main = .s_CLEANUP ∧ emits C m d = some b := by
  have hcount := h.count
  have hbyte : m.r_Rx_Byte = b := BitVec.eq_of_getLsbD_eq (fun j hj => h.bits j hj)
  have hstep : m.step C d = { m with
      r_Rx_DV := true, o_Rx_Byte := b, r_Clock_Count := 0, r_SM_Main := .s_CLEANUP } := by
    unfold step
    rw [h.state_eq]
    dsimp only
    rw [if_neg (by omega), hbyte]
  unfold emits
  rw [hstep, h.quiet]
  exact ⟨rfl, rfl⟩

theorem cleanup (h : m.r_SM_Main = .s_CLEANUP) : Idle (m.step C d) := by
  unfold step
  rw [h]
  exact ⟨rfl, rfl⟩

end Ticks

/-! ## A frame -/

section Frame

variable {C : ℕ} {m : UartFsm} {d : ℕ → Bool}

/-- A high line keeps the machine waiting. -/
theorem idle_delivers (h : Idle m) {n : ℕ} (hd : ∀ k < n, d k = true) :
    Delivers (step C) (emits C) m d n Idle [] := by
  refine Delivers.silent (P := fun _ => Idle) h ?_
  intro k hk t ht
  rw [hd k hk]
  have hnext : Idle (t.step C true) := ht.high
  exact ⟨hnext, emits_quiet hnext.2⟩

/-- While the machine counts it delivers nothing, whatever is on the line. -/
theorem counting_delivers {b : BitVec 8} {state : UartState} {i n : ℕ}
    (h : Counting b state i 0 m)
    (hnext : ∀ k < n, ∀ t x, Counting b state i k t → Counting b state i (k + 1) (t.step C x)) :
    Delivers (step C) (emits C) m d n (Counting b state i n) [] := by
  refine Delivers.silent (P := Counting b state i) h ?_
  intro k hk t ht
  have hcount := hnext k hk t (d k) ht
  exact ⟨hcount, emits_quiet hcount.quiet⟩

/-- From the first low tick to the middle of the start bit. -/
theorem start_delivers (h : Idle m) (b : BitVec 8) (hC : C ≤ 2 ^ 16) (h0 : d 0 = false)
    (hmid : d ((C - 1) / 2 + 1) = false) :
    Delivers (step C) (emits C) m d (1 + (C - 1) / 2 + 1) (Counting b .s_RX_DATA_BITS 0 0) [] := by
  have hlow : Counting b .s_RX_START_BIT 0 0 (m.step C (d 0)) := by
    rw [h0]
    exact h.low b
  have hdetect : Delivers (step C) (emits C) m d 1 (Counting b .s_RX_START_BIT 0 0) [] :=
    Delivers.tick (e := none) hlow (emits_quiet hlow.quiet)
  have hwait : Delivers (step C) (emits C) m d (1 + (C - 1) / 2)
      (Counting b .s_RX_START_BIT 0 ((C - 1) / 2)) [] := by
    refine hdetect.silent_seq ?_
    intro t ht
    exact counting_delivers ht (fun k hk t' x ht' => ht'.start hC hk)
  refine hwait.silent_seq ?_
  intro t ht
  have hnext : Counting b .s_RX_DATA_BITS 0 0 (t.step C (d (1 + (C - 1) / 2 + 0))) := by
    rw [show 1 + (C - 1) / 2 + 0 = (C - 1) / 2 + 1 by omega, hmid]
    exact ht.found
  exact Delivers.tick (e := none) hnext (emits_quiet hnext.quiet)

/-- The ticks up to the sample of bit `i`. -/
theorem bit_delivers {b : BitVec 8} {i : ℕ} (hi : i < 8) (h : Counting b .s_RX_DATA_BITS i 0 m)
    (hC : C ≤ 2 ^ 16) (hd : d (C - 1) = b.getLsbD i) :
    Delivers (step C) (emits C) m d (C - 1 + 1)
      (Counting b (if i < 7 then .s_RX_DATA_BITS else .s_RX_STOP_BIT) (i + 1) 0) [] := by
  have hcount : Delivers (step C) (emits C) m d (C - 1) (Counting b .s_RX_DATA_BITS i (C - 1)) [] :=
    counting_delivers h (fun k hk t x ht => ht.data hC hk)
  refine hcount.silent_seq ?_
  intro t ht
  have hnext := ht.sample hi hd
  exact Delivers.tick (e := none) hnext (emits_quiet hnext.quiet)

/-- All eight bits, each sampled `C` ticks after the one before. -/
theorem bits_delivers {b : BitVec 8} (h : Counting b .s_RX_DATA_BITS 0 0 m) (hC1 : 1 ≤ C)
    (hC : C ≤ 2 ^ 16) {j : ℕ} (hj : j ≤ 8) (hd : ∀ i < j, d (C * i + (C - 1)) = b.getLsbD i) :
    Delivers (step C) (emits C) m d (C * j)
      (Counting b (if j < 8 then .s_RX_DATA_BITS else .s_RX_STOP_BIT) j 0) [] := by
  induction j with
  | zero => exact Delivers.zero h
  | succ j ih =>
      have hprev := ih (by omega) (fun i hi => hd i (by omega))
      rw [if_pos (show j < 8 by omega)] at hprev
      rw [Nat.mul_succ, show C * j + C = C * j + (C - 1 + 1) by omega]
      refine hprev.silent_seq ?_
      intro t ht
      -- after bit `j` the machine is in the state the case `j + 1` asks for
      refine (bit_delivers (by omega) ht hC (hd j (by omega))).mono ?_
      intro t' ht'
      by_cases h7 : j < 7
      · rw [if_pos h7] at ht'
        rw [if_pos (by omega)]
        exact ht'
      · rw [if_neg h7] at ht'
        rw [if_neg (by omega)]
        exact ht'

/-- The stop bit and the cleanup. -/
theorem stop_delivers {b : BitVec 8} (h : Counting b .s_RX_STOP_BIT 8 0 m) (hC : C ≤ 2 ^ 16) :
    Delivers (step C) (emits C) m d (C - 1 + 1 + 1) Idle [b] := by
  have hcount : Delivers (step C) (emits C) m d (C - 1) (Counting b .s_RX_STOP_BIT 8 (C - 1)) [] :=
    counting_delivers h (fun k hk t x ht => ht.stop hC hk)
  have hbyte : Delivers (step C) (emits C) m d (C - 1 + 1) (fun t => t.r_SM_Main = .s_CLEANUP) [b] := by
    refine hcount.silent_seq ?_
    intro t ht
    exact Delivers.tick ht.deliver.1 ht.deliver.2
  have hidle : ∀ t : UartFsm, t.r_SM_Main = .s_CLEANUP →
      Delivers (step C) (emits C) t (fun k => d (C - 1 + 1 + k)) 1 Idle [] := by
    intro t ht
    have hnext : Idle (t.step C (d (C - 1 + 1 + 0))) := cleanup ht
    exact Delivers.tick (e := none) hnext (emits_quiet hnext.2)
  exact hbyte.seq hidle

/-- **A frame.** From an idle machine, a low line in the first tick and in the middle of the
start bit and the bits of `b` in the middle of the data bits deliver `b` once, and the machine
is idle again before the end of the stop bit. -/
theorem frame_delivers (h : Idle m) (b : BitVec 8) (hC1 : 1 ≤ C) (hC : C ≤ 2 ^ 16)
    (h0 : d 0 = false) (hmid : d ((C - 1) / 2 + 1) = false)
    (hbits : ∀ i < 8, d ((C - 1) / 2 + 1 + C * (i + 1)) = b.getLsbD i) :
    Delivers (step C) (emits C) m d ((C - 1) / 2 + 9 * C + 3) Idle [b] := by
  have hstart := start_delivers h b hC h0 hmid
  have hdata : Delivers (step C) (emits C) m d (1 + (C - 1) / 2 + 1 + C * 8)
      (Counting b .s_RX_STOP_BIT 8 0) [] := by
    refine hstart.silent_seq ?_
    intro t ht
    refine bits_delivers ht hC1 hC (le_refl 8) ?_
    intro i hi
    rw [← hbits i hi]
    congr 1
    rw [Nat.mul_succ]
    omega
  rw [show (C - 1) / 2 + 9 * C + 3 = 1 + (C - 1) / 2 + 1 + C * 8 + (C - 1 + 1 + 1) by omega]
  refine hdata.silent_seq ?_
  intro t ht
  exact stop_delivers ht hC

end Frame

end UartFsm

/-! ## The domain of `UartClk[2]` -/

/-- The registers clocked by `UartClk[2]`. -/
structure UartDomain where
  r_Rx_Data_R : Bool
  r_Rx_Data : Bool
  fsm : UartFsm

/-- One rising edge of `UartClk[2]`. -/
def UartDomain.step (CLKS_PER_BIT : ℕ) (s : UartDomain) (i_Rx_Serial : Bool) : UartDomain where
  r_Rx_Data_R := i_Rx_Serial
  r_Rx_Data := s.r_Rx_Data_R
  fsm := s.fsm.step CLKS_PER_BIT s.r_Rx_Data

/-- The line as the machine sees it, two ticks late. -/
def seen (x : ℕ → Bool) : ℕ → Bool := registered true (registered true x)

section Domain

variable {C : ℕ} {s : UartDomain}

theorem UartDomain.run_r_Rx_Data (hR : s.r_Rx_Data_R = true) (hD : s.r_Rx_Data = true)
    (x : ℕ → Bool) (q : ℕ) : (run (UartDomain.step C) s x q).r_Rx_Data = seen x q := by
  cases q with
  | zero => exact hD
  | succ q =>
      cases q with
      | zero => exact hR
      | succ q => rfl

theorem UartDomain.run_fsm (hR : s.r_Rx_Data_R = true) (hD : s.r_Rx_Data = true)
    (x : ℕ → Bool) (q : ℕ) :
    (run (UartDomain.step C) s x q).fsm = run (UartFsm.step C) s.fsm (seen x) q := by
  have hfsm : (run (UartDomain.step C) s x q).fsm
      = run (UartFsm.step C) s.fsm (fun k => (run (UartDomain.step C) s x k).r_Rx_Data) q :=
    run_proj UartDomain.fsm (fun t _ => t.r_Rx_Data) (fun _ _ => rfl) s x q
  rw [hfsm]
  apply run_congr
  intro k _
  exact run_r_Rx_Data hR hD x k

end Domain

/-! ## The module -/

/-- The registers of `uart_rx`. -/
structure UartRx where
  UartClk : BitVec 8
  domain : UartDomain
  o_Rx_DV : Bool
  r_Rx_DV_last : Bool

namespace UartRx

/-- The edge of `osc_clk` raises `UartClk[2]`. -/
def raises (UartClk : BitVec 8) : Bool := !UartClk.getLsbD 2 && (UartClk + 1).getLsbD 2

/-- One rising edge of `osc_clk`. -/
def step (CLKS_PER_BIT : ℕ) (s : UartRx) (i_Rx_Serial : Bool) : UartRx where
  UartClk := s.UartClk + 1
  o_Rx_DV := s.domain.fsm.r_Rx_DV && !s.r_Rx_DV_last
  r_Rx_DV_last := s.domain.fsm.r_Rx_DV
  domain := gated (UartDomain.step CLKS_PER_BIT) s.domain
    (if raises s.UartClk then some i_Rx_Serial else none)

/-- The initial values; `o_Rx_DV`, `o_Rx_Byte` and `r_Rx_DV_last` have none. -/
structure PowerUp (s : UartRx) : Prop where
  UartClk : s.UartClk = 0
  r_Rx_Data_R : s.domain.r_Rx_Data_R = true
  r_Rx_Data : s.domain.r_Rx_Data = true
  r_Clock_Count : s.domain.fsm.r_Clock_Count = 0
  r_Bit_Index : s.domain.fsm.r_Bit_Index = 0
  r_Rx_Byte : s.domain.fsm.r_Rx_Byte = 0
  r_Rx_DV : s.domain.fsm.r_Rx_DV = false
  r_SM_Main : s.domain.fsm.r_SM_Main = .s_IDLE

/-- What the outputs tell: the byte, in a clock with `o_Rx_DV`. -/
def received (s : UartRx) : Option (BitVec 8) :=
  if s.o_Rx_DV then some s.domain.fsm.o_Rx_Byte else none

section Run

variable {C : ℕ} {s : UartRx}

theorem run_UartClk (h0 : s.UartClk = 0) (u : ℕ → Bool) (n : ℕ) :
    (run (step C) s u n).UartClk = BitVec.ofNat 8 n := by
  have hcount : (run (step C) s u n).UartClk = s.UartClk + BitVec.ofNat 8 n :=
    run_freeRunning UartRx.UartClk (fun _ _ => rfl) s u n
  rw [hcount, h0]
  exact BitVec.zero_add _

theorem raises_iff (c : BitVec 8) : raises c = true ↔ c.toNat % 8 = 3 := by
  revert c
  decide +kernel

/-- One edge in eight is an edge of the divided clock. -/
theorem raises_run (h0 : s.UartClk = 0) (u : ℕ → Bool) (n : ℕ) :
    raises (run (step C) s u n).UartClk = true ↔ n % 8 = 3 := by
  rw [raises_iff, run_UartClk h0, BitVec.toNat_ofNat]
  omega

theorem run_domain (h0 : s.UartClk = 0) (u : ℕ → Bool) (n : ℕ) :
    (run (step C) s u n).domain
      = run (UartDomain.step C) s.domain (fun q => u (8 * q + 3)) (ticks 8 3 n) := by
  have hgated : (run (step C) s u n).domain
      = run (gated (UartDomain.step C)) s.domain
          (fun k => if raises (run (step C) s u k).UartClk then some (u k) else none) n :=
    run_proj UartRx.domain (fun t i => if raises t.UartClk then some i else none)
      (fun _ _ => rfl) s u n
  rw [hgated, ← run_divided (show 3 < 8 by omega)]
  apply run_congr
  intro k _
  by_cases h : k % 8 = 3
  · rw [if_pos h, if_pos ((raises_run h0 u k).mpr h)]
  · rw [if_neg h, if_neg (fun hr => h ((raises_run h0 u k).mp hr))]

/-- The edge detector: a byte is told in the clock after the first one in which `r_Rx_DV` is
high. -/
theorem received_run (h : s.PowerUp) (u : ℕ → Bool) (n : ℕ) :
    (run (step C) s u (n + 1)).received
      = if n % 8 = 4 then
          UartFsm.emits C
            (run (UartDomain.step C) s.domain (fun q => u (8 * q + 3)) (n / 8)).fsm
            (run (UartDomain.step C) s.domain (fun q => u (8 * q + 3)) (n / 8)).r_Rx_Data
        else none := by
  cases n with
  | zero =>
      have hDV : (run (step C) s u 1).o_Rx_DV = false := by
        show (s.domain.fsm.r_Rx_DV && !s.r_Rx_DV_last) = false
        rw [h.r_Rx_DV]
        rfl
      unfold received
      rw [hDV]
      rfl
  | succ n =>
      have hDV : (run (step C) s u (n + 2)).o_Rx_DV
          = ((run (step C) s u (n + 1)).domain.fsm.r_Rx_DV
            && !(run (step C) s u n).domain.fsm.r_Rx_DV) := rfl
      have hnext := ticks_succ (p := 8) (r := 3) (n := n) (by omega)
      have hnext' := ticks_succ (p := 8) (r := 3) (n := n + 1) (by omega)
      unfold received
      rw [hDV, run_domain h.UartClk, run_domain h.UartClk, run_domain h.UartClk]
      by_cases h3 : n % 8 = 3
      · -- the last clock ended with a tick, and the one before did not
        have htick := ticks_eq h3 (by omega)
        rw [if_neg (show ¬ (n + 1) % 8 = 3 by omega)] at hnext'
        rw [if_pos h3, htick] at hnext
        rw [hnext', hnext, htick, if_pos (show (n + 1) % 8 = 4 by omega),
          show (n + 1) / 8 = n / 8 by omega]
        rfl
      · -- no tick since the last clock: the detector sees no edge
        have hsame : ticks 8 3 (n + 1) = ticks 8 3 n := by rw [hnext, if_neg h3]
        rw [hsame, if_neg (show ¬ (n + 1) % 8 = 4 by omega)]
        simp

/-- What `uart_rx` tells in the clocks from the first edge on is what its machine delivers. -/
theorem events_received (h : s.PowerUp) (u : ℕ → Bool) (n : ℕ) :
    events (fun k => (run (step C) s u (k + 1)).received) n
      = events (fun q => UartFsm.emits C
          (run (UartFsm.step C) s.domain.fsm (seen (fun j => u (8 * j + 3))) q)
          (seen (fun j => u (8 * j + 3)) q)) (ticks 8 4 n) := by
  rw [← events_divided (show 4 < 8 by omega)]
  apply events_congr
  intro k _
  rw [received_run h, UartDomain.run_fsm h.r_Rx_Data_R h.r_Rx_Data,
    UartDomain.run_r_Rx_Data h.r_Rx_Data_R h.r_Rx_Data]

end Run

end UartRx

end OneBitSDR
