import OneBitSDR.Clocked.Run

set_option autoImplicit false

/-! # `UartTX.v`: the serial transmitter

The transmitter takes a byte when `i_Tx_DV` is high in its idle state, and only then: a request in
any other clock is dropped. It then drives ten symbols, each for `CLKS_PER_BIT` clocks, and spends
one more clock in `s_CLEANUP`. The state of a clock is described by the symbol that is sent and
the clocks it has been sent for. From that follow the bytes taken so far, the times of their
frames and the level of the line.
-/

namespace OneBitSDR

open Clocked

/-- The values of `r_SM_Main` that the transmitter takes. -/
inductive UartTxState
  | s_IDLE
  | s_TX_START_BIT
  | s_TX_DATA_BITS
  | s_TX_STOP_BIT
  | s_CLEANUP
  deriving DecidableEq

/-- The registers of `uart_tx`. The divided clock `UartClk` is counted and not used. -/
structure UartTx where
  r_SM_Main : UartTxState
  r_Clock_Count : BitVec 16
  r_Bit_Index : BitVec 3
  r_Tx_Data : BitVec 8
  r_Tx_Done : Bool
  r_Tx_Active : Bool
  o_Tx_Serial : Bool

namespace UartTx

/-- The request ports. -/
structure Ports where
  i_Tx_DV : Bool
  i_Tx_Byte : BitVec 8

/-- One rising edge of `osc_clk`. -/
def step (CLKS_PER_BIT : ℕ) (m : UartTx) (i : Ports) : UartTx :=
  match m.r_SM_Main with
  | .s_IDLE =>
      { m with
        o_Tx_Serial := true
        r_Tx_Done := false
        r_Clock_Count := 0
        r_Bit_Index := 0
        r_Tx_Active := if i.i_Tx_DV then true else m.r_Tx_Active
        r_Tx_Data := if i.i_Tx_DV then i.i_Tx_Byte else m.r_Tx_Data
        r_SM_Main := if i.i_Tx_DV then .s_TX_START_BIT else .s_IDLE }
  | .s_TX_START_BIT =>
      if m.r_Clock_Count.toNat < CLKS_PER_BIT - 1 then
        { m with
          o_Tx_Serial := false
          r_Clock_Count := m.r_Clock_Count + 1
          r_SM_Main := .s_TX_START_BIT }
      else
        { m with o_Tx_Serial := false, r_Clock_Count := 0, r_SM_Main := .s_TX_DATA_BITS }
  | .s_TX_DATA_BITS =>
      if m.r_Clock_Count.toNat < CLKS_PER_BIT - 1 then
        { m with
          o_Tx_Serial := m.r_Tx_Data.getLsbD m.r_Bit_Index.toNat
          r_Clock_Count := m.r_Clock_Count + 1
          r_SM_Main := .s_TX_DATA_BITS }
      else
        { m with
          o_Tx_Serial := m.r_Tx_Data.getLsbD m.r_Bit_Index.toNat
          r_Clock_Count := 0
          r_Bit_Index := if m.r_Bit_Index.toNat < 7 then m.r_Bit_Index + 1 else 0
          r_SM_Main := if m.r_Bit_Index.toNat < 7 then .s_TX_DATA_BITS else .s_TX_STOP_BIT }
  | .s_TX_STOP_BIT =>
      if m.r_Clock_Count.toNat < CLKS_PER_BIT - 1 then
        { m with
          o_Tx_Serial := true
          r_Clock_Count := m.r_Clock_Count + 1
          r_SM_Main := .s_TX_STOP_BIT }
      else
        { m with
          o_Tx_Serial := true
          r_Tx_Done := true
          r_Clock_Count := 0
          r_SM_Main := .s_CLEANUP
          r_Tx_Active := false }
  | .s_CLEANUP => { m with r_Tx_Done := true, r_SM_Main := .s_IDLE }

/-- The request that the next edge takes. -/
def accepts (m : UartTx) (i : Ports) : Option (BitVec 8) :=
  if m.r_SM_Main = .s_IDLE ∧ i.i_Tx_DV = true then some i.i_Tx_Byte else none

/-- The initial values; `o_Tx_Serial` has none. -/
structure PowerUp (m : UartTx) : Prop where
  r_SM_Main : m.r_SM_Main = .s_IDLE
  r_Clock_Count : m.r_Clock_Count = 0
  r_Bit_Index : m.r_Bit_Index = 0
  r_Tx_Data : m.r_Tx_Data = 0
  r_Tx_Done : m.r_Tx_Done = false
  r_Tx_Active : m.r_Tx_Active = false

/-! ## One edge -/

/-- Symbol `i` of the frame of `b`: the start bit, the data from the least significant bit on, the
stop bit. -/
def symbol (b : BitVec 8) (i : ℕ) : Bool :=
  if i = 0 then false else if i ≤ 8 then b.getLsbD (i - 1) else true

/-- The state in which symbol `i` is sent. -/
def sends (i : ℕ) : UartTxState :=
  if i = 0 then .s_TX_START_BIT else if i ≤ 8 then .s_TX_DATA_BITS else .s_TX_STOP_BIT

/-- The transmitter waits for a request. -/
structure Idle (m : UartTx) : Prop where
  state_eq : m.r_SM_Main = .s_IDLE
  active : m.r_Tx_Active = false

/-- Symbol `i` of `b` is sent, and has been counted for `k` clocks. -/
structure Sending (b : BitVec 8) (i k : ℕ) (m : UartTx) : Prop where
  state_eq : m.r_SM_Main = sends i
  count : m.r_Clock_Count.toNat = k
  index : m.r_Bit_Index.toNat = (i - 1) % 8
  data : m.r_Tx_Data = b
  active : m.r_Tx_Active = true
  done : m.r_Tx_Done = false

/-- The clock after the last one of the stop bit. -/
structure Finished (m : UartTx) : Prop where
  state_eq : m.r_SM_Main = .s_CLEANUP
  active : m.r_Tx_Active = false
  done : m.r_Tx_Done = true
  serial : m.o_Tx_Serial = true

section Edge

variable {C i k : ℕ} {b : BitVec 8} {m : UartTx} {p : Ports}

theorem PowerUp.idle (h : m.PowerUp) : m.Idle := ⟨h.r_SM_Main, h.r_Tx_Active⟩

theorem Idle.step_serial (h : m.Idle) : (m.step C p).o_Tx_Serial = true := by
  unfold step
  rw [h.state_eq]

theorem Idle.step_done (h : m.Idle) : (m.step C p).r_Tx_Done = false := by
  unfold step
  rw [h.state_eq]

theorem Idle.wait (h : m.Idle) (hp : p.i_Tx_DV = false) : (m.step C p).Idle := by
  unfold step
  rw [h.state_eq]
  constructor <;> simp [hp, h.active]

theorem Idle.accept (h : m.Idle) (hp : p.i_Tx_DV = true) :
    (m.step C p).Sending p.i_Tx_Byte 0 0 := by
  unfold step
  rw [h.state_eq]
  constructor <;> simp [hp, sends]

theorem Idle.accepts (h : m.Idle) :
    m.accepts p = if p.i_Tx_DV = true then some p.i_Tx_Byte else none := by
  unfold UartTx.accepts
  simp [h.state_eq]

theorem sends_ne_idle (i : ℕ) : sends i ≠ .s_IDLE := by
  unfold sends
  split_ifs <;> exact fun h => by cases h

theorem sends_data (h0 : 0 < i) (h8 : i ≤ 8) : sends i = .s_TX_DATA_BITS := by
  unfold sends
  rw [if_neg (by omega), if_pos h8]

theorem symbol_data (h0 : 0 < i) (h8 : i ≤ 8) : symbol b i = b.getLsbD (i - 1) := by
  unfold symbol
  rw [if_neg (by omega), if_pos h8]

theorem Sending.accepts (h : m.Sending b i k) : m.accepts p = none := by
  unfold UartTx.accepts
  rw [h.state_eq, if_neg (fun ha => sends_ne_idle i ha.1)]

theorem Finished.accepts (h : m.Finished) : m.accepts p = none := by
  unfold UartTx.accepts
  rw [h.state_eq]
  simp

/-- The data bit that is sent. -/
theorem Sending.bit (h : m.Sending b i k) (h0 : 0 < i) (h8 : i ≤ 8) :
    m.r_Bit_Index.toNat = i - 1 ∧ m.r_Tx_Data.getLsbD m.r_Bit_Index.toNat = symbol b i := by
  have hindex : m.r_Bit_Index.toNat = i - 1 := by
    rw [h.index, Nat.mod_eq_of_lt (by omega)]
  exact ⟨hindex, by rw [h.data, hindex, symbol_data h0 h8]⟩

/-- Every clock of a symbol drives it. -/
theorem Sending.step_serial (h : m.Sending b i k) (hi : i < 10) :
    (m.step C p).o_Tx_Serial = symbol b i := by
  unfold step
  rw [h.state_eq]
  rcases show i = 0 ∨ (0 < i ∧ i ≤ 8) ∨ i = 9 by omega with rfl | ⟨h0, h8⟩ | rfl
  · show (if _ then _ else _ : UartTx).o_Tx_Serial = false
    split_ifs <;> rfl
  · rw [sends_data h0 h8]
    dsimp only
    rw [(h.bit h0 h8).2]
    split_ifs <;> rfl
  · show (if _ then _ else _ : UartTx).o_Tx_Serial = true
    split_ifs <;> rfl

/-- Before its last clock a symbol is sent on. -/
theorem Sending.next (h : m.Sending b i k) (hi : i < 10) (hk : k + 1 < C) (hC : C ≤ 2 ^ 16) :
    (m.step C p).Sending b i (k + 1) := by
  have hcount := h.count
  have hlt : m.r_Clock_Count.toNat < C - 1 := by omega
  have hsucc : (m.r_Clock_Count + 1).toNat = k + 1 := by
    rw [BitVec.toNat_add, hcount]
    exact Nat.mod_eq_of_lt (show k + 1 < 2 ^ 16 by omega)
  unfold step
  rw [h.state_eq]
  rcases show i = 0 ∨ (0 < i ∧ i ≤ 8) ∨ i = 9 by omega with rfl | ⟨h0, h8⟩ | rfl
  · show (if _ then _ else _ : UartTx).Sending b 0 (k + 1)
    rw [if_pos hlt]
    exact ⟨rfl, hsucc, h.index, h.data, h.active, h.done⟩
  · rw [sends_data h0 h8]
    dsimp only
    rw [if_pos hlt]
    exact ⟨(sends_data h0 h8).symm, hsucc, h.index, h.data, h.active, h.done⟩
  · show (if _ then _ else _ : UartTx).Sending b 9 (k + 1)
    rw [if_pos hlt]
    exact ⟨rfl, hsucc, h.index, h.data, h.active, h.done⟩

/-- The last clock of a symbol leads to the next one. -/
theorem Sending.last (h : m.Sending b i k) (hi : i < 9) (hk : k + 1 = C) :
    (m.step C p).Sending b (i + 1) 0 := by
  have hcount := h.count
  have hfull : ¬ m.r_Clock_Count.toNat < C - 1 := by omega
  unfold step
  rw [h.state_eq]
  rcases show i = 0 ∨ (0 < i ∧ i ≤ 8) by omega with rfl | ⟨h0, h8⟩
  · show (if _ then _ else _ : UartTx).Sending b 1 0
    rw [if_neg hfull]
    exact ⟨rfl, rfl, h.index, h.data, h.active, h.done⟩
  · have hindex := (h.bit h0 h8).1
    rw [sends_data h0 h8]
    dsimp only
    rw [if_neg hfull, hindex]
    rcases show i - 1 < 7 ∨ i = 8 by omega with h7 | rfl
    · rw [if_pos h7, if_pos h7]
      refine ⟨(sends_data (by omega) (by omega)).symm, rfl, ?_, h.data, h.active, h.done⟩
      dsimp only
      rw [BitVec.toNat_add, hindex]
      show (i - 1 + 1) % 8 = i % 8
      rw [Nat.sub_add_cancel h0]
    · -- after bit 7 comes the stop bit
      exact ⟨rfl, rfl, rfl, h.data, h.active, h.done⟩

/-- The last clock of the stop bit. -/
theorem Sending.finish (h : m.Sending b 9 k) (hk : k + 1 = C) : (m.step C p).Finished := by
  have hcount := h.count
  unfold step
  rw [h.state_eq]
  show (if _ then _ else _ : UartTx).Finished
  rw [if_neg (show ¬ m.r_Clock_Count.toNat < C - 1 by omega)]
  exact ⟨rfl, rfl, rfl, rfl⟩

theorem Finished.cleanup (h : m.Finished) :
    (m.step C p).Idle ∧ (m.step C p).r_Tx_Done = true ∧ (m.step C p).o_Tx_Serial = true := by
  unfold step
  rw [h.state_eq]
  exact ⟨⟨rfl, h.active⟩, rfl, h.serial⟩

end Edge

/-! ## Frames

A request taken by edge `a` is the pair of `a` and its byte. Its frame is on the line after the
edges `a + 1` to `a + 10 CLKS_PER_BIT`. -/

/-- What the frame of a request puts on the line after edge `k`. -/
def level (C : ℕ) (r : ℕ × BitVec 8) (k : ℕ) : Bool :=
  if r.1 + 1 ≤ k ∧ k < r.1 + 1 + 10 * C then symbol r.2 ((k - (r.1 + 1)) / C) else true

/-- The requests taken by the first `n` edges. -/
def taken (C : ℕ) (m : UartTx) (u : ℕ → Ports) (n : ℕ) : List (ℕ × BitVec 8) :=
  events (fun k => ((run (step C) m u k).accepts (u k)).map (fun b => (k, b))) n

/-- The bytes taken by the first `n` edges. -/
def accepted (C : ℕ) (m : UartTx) (u : ℕ → Ports) (n : ℕ) : List (BitVec 8) :=
  events (fun k => (run (step C) m u k).accepts (u k)) n

/-- The situation after `n` edges, when the requests `F` have been taken. -/
inductive Phase (C : ℕ) (n : ℕ) (m : UartTx) (F : List (ℕ × BitVec 8)) : Prop
  | idle (hm : m.Idle) (hF : ∀ r ∈ F, r.1 + 10 * C + 2 ≤ n)
  | sending (F' : List (ℕ × BitVec 8)) (a : ℕ) (b : BitVec 8) (i k : ℕ) (hF : F = F' ++ [(a, b)])
      (hF' : ∀ r ∈ F', r.1 + 10 * C + 2 ≤ a) (hi : i < 10) (hk : k < C)
      (hn : n = a + 1 + (C * i + k)) (hm : m.Sending b i k)
  | finished (F' : List (ℕ × BitVec 8)) (a : ℕ) (b : BitVec 8) (hF : F = F' ++ [(a, b)])
      (hF' : ∀ r ∈ F', r.1 + 10 * C + 2 ≤ a) (hn : n = a + 1 + 10 * C) (hm : m.Finished)

section Frames

variable {C : ℕ} {m : UartTx} {u : ℕ → Ports} {n : ℕ} {F : List (ℕ × BitVec 8)} {p : Ports}

theorem level_before {r : ℕ × BitVec 8} {k : ℕ} (h : k ≤ r.1) : level C r k = true := by
  unfold level
  rw [if_neg (fun hk => by omega)]

/-- The stop bit is as high as the idle line. -/
theorem level_after {r : ℕ × BitVec 8} {k : ℕ} (h : r.1 + 1 + 9 * C ≤ k) : level C r k = true := by
  unfold level
  split_ifs with hk
  · have hstop : 9 ≤ (k - (r.1 + 1)) / C := by
      rw [Nat.le_div_iff_mul_le (by omega)]
      omega
    unfold symbol
    rw [if_neg (by omega), if_neg (by omega)]
  · rfl

/-- Clock `k` of symbol `i` is a clock of the frame. -/
theorem clock_lt {i k : ℕ} (hi : i < 10) (hk : k < C) : C * i + k < 10 * C := by
  have hle : C * i ≤ C * 9 := Nat.mul_le_mul_left C (by omega)
  omega

theorem level_symbol {a i k : ℕ} {b : BitVec 8} (hi : i < 10) (hk : k < C) :
    level C (a, b) (a + 1 + (C * i + k)) = symbol b i := by
  have hlt := clock_lt hi hk
  unfold level
  rw [if_pos ⟨by omega, by dsimp only; omega⟩, Nat.add_sub_cancel_left,
    Nat.mul_add_div (by omega), Nat.div_eq_of_lt hk, Nat.add_zero]

/-- The line when all frames have ended. -/
theorem all_level_after (h : ∀ r ∈ F, r.1 + 1 + 10 * C ≤ n) :
    F.all (fun r => level C r n) = true := by
  rw [List.all_eq_true]
  intro r hr
  have hend := h r hr
  exact level_after (by omega)

/-- **One edge.** The next edge leads to the next situation, and drives the line with the frame
that is being sent. -/
theorem Phase.step (h : Phase C n m F) (hC1 : 1 ≤ C) (hC : C ≤ 2 ^ 16) :
    Phase C (n + 1) (m.step C p) (F ++ ((m.accepts p).map (fun b => (n, b))).toList) ∧
    (m.step C p).o_Tx_Serial = F.all (fun r => level C r n) := by
  cases h with
  | idle hm hF =>
      refine ⟨?_, ?_⟩
      · rw [hm.accepts]
        by_cases hp : p.i_Tx_DV = true
        · rw [if_pos hp]
          exact .sending F n p.i_Tx_Byte 0 0 rfl hF (by omega) hC1 rfl (hm.accept hp)
        · rw [if_neg hp]
          refine .idle (hm.wait (Bool.not_eq_true _ ▸ hp)) ?_
          intro r hr
          rw [Option.map_none, Option.toList_none, List.append_nil] at hr
          have := hF r hr
          omega
      · rw [hm.step_serial, all_level_after (fun r hr => by have := hF r hr; omega)]
  | sending F' a b i k hF hF' hi hk hn hm =>
      refine ⟨?_, ?_⟩
      · rw [hm.accepts, Option.map_none, Option.toList_none, List.append_nil]
        by_cases hnext : k + 1 < C
        · exact .sending F' a b i (k + 1) hF hF' hi hnext (by omega) (hm.next hi hnext hC)
        · have hk1 : k + 1 = C := by omega
          by_cases h9 : i = 9
          · subst h9
            exact .finished F' a b hF hF' (by omega) (hm.finish hk1)
          · refine .sending F' a b (i + 1) 0 hF hF' (by omega) hC1 ?_ (hm.last (by omega) hk1)
            rw [hn, Nat.mul_succ]
            omega
      · have hbefore : F'.all (fun r => level C r n) = true :=
          all_level_after (fun r hr => by have := hF' r hr; omega)
        rw [hm.step_serial hi, hF, List.all_append, hbefore, hn]
        simp [level_symbol hi hk]
  | finished F' a b hF hF' hn hm =>
      rw [hm.accepts, Option.map_none, Option.toList_none, List.append_nil]
      have hend : ∀ r ∈ F, r.1 + 1 + 10 * C ≤ n := by
        intro r hr
        rw [hF, List.mem_append, List.mem_singleton] at hr
        rcases hr with hr | rfl
        · have := hF' r hr
          omega
        · exact le_of_eq hn.symm
      refine ⟨.idle hm.cleanup.1 ?_, ?_⟩
      · intro r hr
        have := hend r hr
        omega
      · rw [hm.cleanup.2.2, all_level_after hend]

/-! ## The requests taken so far -/

theorem taken_succ (C : ℕ) (m : UartTx) (u : ℕ → Ports) (n : ℕ) :
    taken C m u (n + 1) = taken C m u n
      ++ (((run (UartTx.step C) m u n).accepts (u n)).map (fun b => (n, b))).toList := rfl

theorem accepted_eq (C : ℕ) (m : UartTx) (u : ℕ → Ports) (n : ℕ) :
    accepted C m u n = (taken C m u n).map Prod.snd := by
  induction n with
  | zero => rfl
  | succ n ih =>
      rw [taken_succ, List.map_append, ← ih, accepted, accepted, events_succ]
      cases (run (UartTx.step C) m u n).accepts (u n) <;> rfl

theorem taken_lt {r : ℕ × BitVec 8} (hr : r ∈ taken C m u n) : r.1 < n := by
  induction n with
  | zero => cases hr
  | succ n ih =>
      rw [taken_succ, List.mem_append] at hr
      rcases hr with hr | hr
      · have := ih hr
        omega
      · cases ha : (run (UartTx.step C) m u n).accepts (u n) with
        | none => simp [ha] at hr
        | some b =>
            simp only [ha, Option.map_some, Option.toList_some, List.mem_singleton] at hr
            rw [hr]
            exact Nat.lt_succ_self n

/-- A request of a later edge does not change the line of an earlier one. -/
theorem all_level_of_le {k : ℕ} (h : k ≤ n) :
    (taken C m u n).all (fun r => level C r k) = (taken C m u k).all (fun r => level C r k) := by
  induction n, h using Nat.le_induction with
  | base => rfl
  | succ n hkn ih =>
      rw [taken_succ, List.all_append, ih]
      cases (run (UartTx.step C) m u n).accepts (u n) with
      | none => simp
      | some b => simp [level_before (r := (n, b)) hkn]

/-- Each request is taken after the frame of the one before. -/
def Separate (C : ℕ) (F : List (ℕ × BitVec 8)) : Prop :=
  F.Pairwise (fun r r' => r.1 + 10 * C + 2 ≤ r'.1)

section Runs

variable (hC1 : 1 ≤ C) (hC : C ≤ 2 ^ 16) (hm : m.Idle)

include hC1 hC hm

theorem run_phase (u : ℕ → Ports) (n : ℕ) :
    Phase C n (run (UartTx.step C) m u n) (taken C m u n) := by
  induction n with
  | zero => exact .idle hm (fun r hr => by cases hr)
  | succ n ih => exact (ih.step hC1 hC).1

theorem run_serial (u : ℕ → Ports) (n : ℕ) :
    (run (UartTx.step C) m u (n + 1)).o_Tx_Serial
      = (taken C m u n).all (fun r => level C r n) :=
  ((run_phase hC1 hC hm u n).step hC1 hC).2

/-- A request is taken when the frames before it have ended. -/
theorem accepts_run (u : ℕ → Ports) (n : ℕ) :
    (run (UartTx.step C) m u n).accepts (u n)
      = if (u n).i_Tx_DV = true ∧ ∀ r ∈ taken C m u n, r.1 + 10 * C + 2 ≤ n then
          some (u n).i_Tx_Byte
        else none := by
  cases run_phase hC1 hC hm u n with
  | idle hidle hF =>
      rw [hidle.accepts]
      by_cases hp : (u n).i_Tx_DV = true
      · rw [if_pos hp, if_pos ⟨hp, hF⟩]
      · rw [if_neg hp, if_neg (fun h => hp h.1)]
  | sending F' a b i k hF hF' hi hk hn hsend =>
      have hlt := clock_lt hi hk
      rw [hsend.accepts, if_neg]
      rintro ⟨-, hall⟩
      have := hall (a, b) (by simp [hF])
      dsimp only at this
      omega
  | finished F' a b hF hF' hn hfin =>
      rw [hfin.accepts, if_neg]
      rintro ⟨-, hall⟩
      have := hall (a, b) (by simp [hF])
      dsimp only at this
      omega

theorem separate_taken (u : ℕ → Ports) (n : ℕ) : Separate C (taken C m u n) := by
  induction n with
  | zero => exact List.Pairwise.nil
  | succ n ih =>
      rw [taken_succ, accepts_run hC1 hC hm]
      split_ifs with h
      · refine List.pairwise_append.mpr ⟨ih, List.pairwise_singleton _ _, ?_⟩
        intro r hr r' hr'
        simp only [Option.map_some, Option.toList_some, List.mem_singleton] at hr'
        rw [hr']
        exact h.2 r hr
      · simpa using ih

/-- `o_Tx_Active` is high for the clocks of a frame. -/
theorem active_run (u : ℕ → Ports) (n : ℕ) :
    (run (UartTx.step C) m u n).r_Tx_Active = true
      ↔ ∃ r ∈ taken C m u n, n ≤ r.1 + 10 * C := by
  cases run_phase hC1 hC hm u n with
  | idle hidle hF =>
      rw [hidle.active]
      constructor
      · intro h
        cases h
      · rintro ⟨r, hr, hle⟩
        have := hF r hr
        omega
  | sending F' a b i k hF hF' hi hk hn hsend =>
      have hlt := clock_lt hi hk
      exact ⟨fun _ => ⟨(a, b), by simp [hF], by dsimp only; omega⟩, fun _ => hsend.active⟩
  | finished F' a b hF hF' hn hfin =>
      rw [hfin.active]
      constructor
      · intro h
        cases h
      · rintro ⟨r, hr, hle⟩
        rw [hF, List.mem_append, List.mem_singleton] at hr
        rcases hr with hr | rfl
        · have := hF' r hr
          omega
        · dsimp only at hle
          omega

/-- `o_Tx_Done` is high in the two clocks after a frame. -/
theorem done_run (u : ℕ → Ports) (n : ℕ) :
    (run (UartTx.step C) m u (n + 1)).r_Tx_Done = true
      ↔ ∃ r ∈ taken C m u n, n = r.1 + 10 * C ∨ n = r.1 + 10 * C + 1 := by
  rw [run_succ]
  cases run_phase hC1 hC hm u n with
  | idle hidle hF =>
      rw [hidle.step_done]
      constructor
      · intro h
        cases h
      · rintro ⟨r, hr, hn⟩
        have := hF r hr
        omega
  | sending F' a b i k hF hF' hi hk hn hsend =>
      by_cases hlast : i = 9 ∧ k + 1 = C
      · obtain ⟨rfl, hk1⟩ := hlast
        rw [(hsend.finish hk1).done]
        exact ⟨fun _ => ⟨(a, b), by simp [hF], by dsimp only; omega⟩, fun _ => rfl⟩
      · have hlow : ((run (UartTx.step C) m u n).step C (u n)).r_Tx_Done = false := by
          by_cases hk1 : k + 1 = C
          · exact (hsend.last (by omega) hk1).done
          · exact (hsend.next hi (by omega) hC).done
        have hend : C * i + k + 1 < 10 * C := by
          by_cases h9 : i = 9
          · subst h9
            omega
          · have := clock_lt (show i + 1 < 10 by omega) (show 0 < C by omega)
            rw [Nat.mul_succ] at this
            omega
        rw [hlow]
        constructor
        · intro h
          cases h
        · rintro ⟨r, hr, hrn⟩
          rw [hF, List.mem_append, List.mem_singleton] at hr
          rcases hr with hr | rfl
          · have := hF' r hr
            omega
          · dsimp only at hrn
            omega
  | finished F' a b hF hF' hn hfin =>
      rw [hfin.cleanup.2.1]
      exact ⟨fun _ => ⟨(a, b), by simp [hF], by dsimp only; omega⟩, fun _ => rfl⟩

end Runs

end Frames

/-! ## The module and its schedule -/

/-- The requests that get a frame, with the edges that take them: those that come when the frames
before them, and two clocks more, are over. -/
def schedule (C : ℕ) (u : ℕ → Ports) : ℕ → List (ℕ × BitVec 8)
  | 0 => []
  | n + 1 =>
      schedule C u n ++
        if (u n).i_Tx_DV = true ∧ ∀ r ∈ schedule C u n, r.1 + 10 * C + 2 ≤ n then
          [(n, (u n).i_Tx_Byte)]
        else []

theorem taken_eq_schedule {C : ℕ} {m : UartTx} (hC1 : 1 ≤ C) (hC : C ≤ 2 ^ 16) (hm : m.Idle)
    (u : ℕ → Ports) (n : ℕ) : taken C m u n = schedule C u n := by
  induction n with
  | zero => rfl
  | succ n ih =>
      rw [taken_succ, accepts_run hC1 hC hm, ih, schedule]
      split_ifs <;> rfl

/-- **The transmitter.** After power-up, whatever is requested when: the requests of the schedule
are sent, each one with its byte as ten symbols of `CLKS_PER_BIT` clocks, and all others are
dropped; `o_Tx_Active` is high for the clocks of a frame, and `o_Tx_Done` for the two clocks after
it. -/
theorem follows_schedule (C : ℕ) (hC1 : 1 ≤ C) (hC : C ≤ 2 ^ 16) (m : UartTx) (hm : m.PowerUp)
    (u : ℕ → Ports) (n : ℕ) :
    accepted C m u n = (schedule C u n).map Prod.snd ∧
    (run (UartTx.step C) m u (n + 1)).o_Tx_Serial
      = (schedule C u n).all (fun r => level C r n) ∧
    ((run (UartTx.step C) m u n).r_Tx_Active = true
      ↔ ∃ r ∈ schedule C u n, n ≤ r.1 + 10 * C) ∧
    ((run (UartTx.step C) m u (n + 1)).r_Tx_Done = true
      ↔ ∃ r ∈ schedule C u n, n = r.1 + 10 * C ∨ n = r.1 + 10 * C + 1) := by
  have hschedule := taken_eq_schedule hC1 hC hm.idle u n
  rw [accepted_eq, ← hschedule]
  exact ⟨rfl, run_serial hC1 hC hm.idle u n, active_run hC1 hC hm.idle u n,
    done_run hC1 hC hm.idle u n⟩

/-! ### Four requests, two frames -/

def poweredUp : UartTx where
  r_SM_Main := .s_IDLE
  r_Clock_Count := 0
  r_Bit_Index := 0
  r_Tx_Data := 0
  r_Tx_Done := false
  r_Tx_Active := false
  o_Tx_Serial := false

theorem poweredUp_powerUp : poweredUp.PowerUp := ⟨rfl, rfl, rfl, rfl, rfl, rfl⟩

/-- With two clocks a bit the frame of the first request ends with clock 20. The request in clock
5 comes within it, and the one in clock 21 finds the transmitter in `s_CLEANUP`. -/
def fourRequests (n : ℕ) : Ports where
  i_Tx_DV := decide (n = 0 ∨ n = 5 ∨ n = 21 ∨ n = 22)
  i_Tx_Byte := BitVec.ofNat 8 (65 + n)

theorem follows_schedule_four :
    accepted 2 poweredUp fourRequests 23 = [65, 87] ∧
    (run (UartTx.step 2) poweredUp fourRequests 21).r_Tx_Active = false ∧
    (run (UartTx.step 2) poweredUp fourRequests 21).r_Tx_Done = true := by
  refine ⟨?_, ?_, ?_⟩
  · rw [(follows_schedule 2 (by omega) (by omega) poweredUp poweredUp_powerUp fourRequests 23).1]
    decide
  · rw [← Bool.not_eq_true, (follows_schedule 2 (by omega) (by omega) poweredUp poweredUp_powerUp
      fourRequests 21).2.2.1]
    decide
  · rw [(follows_schedule 2 (by omega) (by omega) poweredUp poweredUp_powerUp
      fourRequests 20).2.2.2]
    decide

end UartTx

end OneBitSDR
