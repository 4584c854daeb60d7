import OneBitSDR.Lattice.CommandPath
import OneBitSDR.Lattice.UartTx

set_option autoImplicit false

/-! # From transmitter to receiver

The serial transmitter and the serial receiver, joined by the line. In the first design both are
clocked by `osc_clk` and have the same `CLKS_PER_BIT`, and the transmitter may be the one on the
same board. A transmitter of another board has a clock of its own, and the receiver is `uart_rx1`
of the second design.
-/

namespace OneBitSDR

open Clocked

/-! ## The receiver of the first design

All registers of `UartRX.v` of the first design are clocked by `osc_clk`, and the outputs are
the registers of the machine themselves. -/

/-- What the outputs `o_Rx_DV` and `o_Rx_Byte` tell. -/
def UartDomain.told (s : UartDomain) : Option (BitVec 8) :=
  if s.fsm.r_Rx_DV then some s.fsm.r_Rx_Byte else none

/-- `r_Rx_DV` is high in `s_CLEANUP` only. -/
def UartFsm.Flagged (m : UartFsm) : Prop := m.r_Rx_DV = true → m.r_SM_Main = .s_CLEANUP

section Told

variable {C : ℕ} {m : UartFsm} {d : Bool}

theorem UartFsm.Flagged.quiet (h : m.Flagged) (hs : m.r_SM_Main ≠ .s_CLEANUP) :
    m.r_Rx_DV = false := by
  by_contra hDV
  exact hs (h (Bool.not_eq_false _ ▸ hDV))

/-- A tick that does not raise `r_Rx_DV` in `s_RX_STOP_BIT` leaves it low. -/
theorem UartFsm.Flagged.step_low (h : m.Flagged)
    (hcount : m.r_SM_Main = .s_RX_STOP_BIT → m.r_Clock_Count.toNat < C - 1) :
    (m.step C d).r_Rx_DV = false := by
  unfold UartFsm.step
  cases hs : m.r_SM_Main with
  | s_IDLE => rfl
  | s_CLEANUP => rfl
  | s_RX_START_BIT =>
      have hlow := h.quiet (by simp [hs])
      dsimp only
      split_ifs <;> exact hlow
  | s_RX_DATA_BITS =>
      have hlow := h.quiet (by simp [hs])
      dsimp only
      split_ifs <;> exact hlow
  | s_RX_STOP_BIT =>
      dsimp only
      rw [if_pos (hcount hs)]
      exact h.quiet (by simp [hs])

/-- A tick that ends with `r_Rx_DV` is one that delivers, and the byte is still in `r_Rx_Byte`. -/
theorem UartFsm.Flagged.step (h : m.Flagged) :
    (m.step C d).Flagged ∧
    (if (m.step C d).r_Rx_DV then some (m.step C d).r_Rx_Byte else none) = m.emits C d := by
  unfold UartFsm.emits
  by_cases hcount : m.r_SM_Main = .s_RX_STOP_BIT → m.r_Clock_Count.toNat < C - 1
  · simp [UartFsm.Flagged, h.step_low hcount]
  · rw [Classical.not_imp] at hcount
    obtain ⟨hs, hfull⟩ := hcount
    have hstep : m.step C d = { m with
        r_Rx_DV := true
        o_Rx_Byte := m.r_Rx_Byte
        r_Clock_Count := 0
        r_SM_Main := .s_CLEANUP } := by
      unfold UartFsm.step
      rw [hs]
      dsimp only
      rw [if_neg hfull]
    rw [hstep, h.quiet (by simp [hs])]
    exact ⟨fun _ => rfl, rfl⟩

end Told

/-- What the module has told after each edge is what its machine delivers. -/
theorem UartDomain.events_told {C : ℕ} {s : UartDomain} (hR : s.r_Rx_Data_R = true)
    (hD : s.r_Rx_Data = true) (hm : s.fsm.Flagged) (x : ℕ → Bool) (n : ℕ) :
    events (fun k => (run (UartDomain.step C) s x (k + 1)).told) n
      = events (fun q => UartFsm.emits C (run (UartFsm.step C) s.fsm (seen x) q) (seen x q)) n := by
  have hflagged : ∀ q, (run (UartFsm.step C) s.fsm (seen x) q).Flagged := fun q =>
    run_invariant (fun _ (m : UartFsm) => m.Flagged) hm (fun _ _ h => h.step.1) q
  apply events_congr
  intro k _
  unfold told
  rw [run_fsm hR hD, run_succ]
  exact (hflagged k).step.2

/-! ## The line in one clock -/

/-- What the machine of the receiver reads from the frames of the requests `F`: two ticks of its
synchroniser, the power-up value of `o_Tx_Serial`, and then the line after each edge. -/
def heard (C : ℕ) (o_Tx_Serial : Bool) (F : List (ℕ × BitVec 8)) : ℕ → Bool
  | 0 => true
  | 1 => true
  | 2 => o_Tx_Serial
  | k + 3 => F.all (fun r => UartTx.level C r k)

section OneClock

variable {C : ℕ} {m : UartFsm} {d : ℕ → Bool} {F : List (ℕ × BitVec 8)}

/-- A line that is high again in the middle of the start bit was a glitch, and nothing is
delivered. -/
theorem UartFsm.glitch_delivers (h : m.Idle) (hC : C ≤ 2 ^ 16) (h0 : d 0 = false)
    (hmid : d ((C - 1) / 2 + 1) = true) :
    Delivers (UartFsm.step C) (UartFsm.emits C) m d (1 + (C - 1) / 2 + 1) UartFsm.Idle [] := by
  have hlow : UartFsm.Counting 0 .s_RX_START_BIT 0 0 (m.step C (d 0)) := by
    rw [h0]
    exact h.low 0
  have hdetect : Delivers (UartFsm.step C) (UartFsm.emits C) m d 1
      (UartFsm.Counting 0 .s_RX_START_BIT 0 0) [] :=
    Delivers.tick (e := none) hlow (UartFsm.emits_quiet hlow.quiet)
  have hwait : Delivers (UartFsm.step C) (UartFsm.emits C) m d (1 + (C - 1) / 2)
      (UartFsm.Counting 0 .s_RX_START_BIT 0 ((C - 1) / 2)) [] := by
    refine hdetect.silent_seq ?_
    intro t ht
    exact UartFsm.counting_delivers ht (fun k hk t' x ht' => ht'.start hC hk)
  refine hwait.silent_seq ?_
  intro t ht
  have hidle : (t.step C (d (1 + (C - 1) / 2 + 0))).Idle := by
    rw [show 1 + (C - 1) / 2 + 0 = (C - 1) / 2 + 1 by omega, hmid]
    unfold UartFsm.step
    rw [ht.state_eq]
    dsimp only
    rw [if_pos ht.count, if_neg (by decide)]
    exact ⟨rfl, ht.quiet⟩
  exact Delivers.tick (e := none) hidle (UartFsm.emits_quiet hidle.2)

/-- The line up to the first frame. -/
theorem all_level_before {k : ℕ} (h : ∀ r ∈ F, k ≤ r.1) :
    F.all (fun r => UartTx.level C r k) = true := by
  rw [List.all_eq_true]
  exact fun r hr => UartTx.level_before (h r hr)

/-- The line within the first frame. -/
theorem all_level_first {r : ℕ × BitVec 8} (hF : UartTx.Separate C (r :: F)) {k : ℕ}
    (hk : k ≤ r.1 + 10 * C + 2) :
    (r :: F).all (fun r => UartTx.level C r k) = UartTx.level C r k := by
  have hrest : F.all (fun r => UartTx.level C r k) = true := by
    apply all_level_before
    intro r' hr'
    exact hk.trans (List.rel_of_pairwise_cons hF hr')
  rw [List.all_cons, hrest, Bool.and_true]

/-- **All frames.** A machine that is idle before edge `τ + 1` delivers the bytes of the frames that
start from there on. -/
theorem link_delivers (h2 : 2 ≤ C) (hC : C ≤ 2 ^ 16) (hF : UartTx.Separate C F) (hm : m.Idle)
    {τ : ℕ} (hτ : ∀ r ∈ F, τ ≤ r.1 + 1)
    (hd : ∀ k, d k = F.all (fun r => UartTx.level C r (τ + k))) {n : ℕ}
    (hn : ∀ r ∈ F, r.1 + 9 * C + (C - 1) / 2 + 4 ≤ τ + n) :
    Delivers (UartFsm.step C) (UartFsm.emits C) m d n UartFsm.Idle (F.map Prod.snd) := by
  induction F generalizing m τ d n with
  | nil =>
      apply UartFsm.idle_delivers hm
      intro k _
      rw [hd]
      rfl
  | cons r F ih =>
      obtain ⟨a, b⟩ := r
      have hτa : τ ≤ a + 1 := hτ _ (List.mem_cons_self ..)
      have hna : a + 9 * C + (C - 1) / 2 + 4 ≤ τ + n := hn _ (List.mem_cons_self ..)
      obtain ⟨w, hw⟩ := Nat.exists_eq_add_of_le hτa
      obtain ⟨n', rfl⟩ := Nat.exists_eq_add_of_le (show w + ((C - 1) / 2 + 9 * C + 3) ≤ n by omega)
      have hfirst : ∀ k, τ + k ≤ a + 10 * C + 2 → d k = UartTx.level C (a, b) (τ + k) := by
        intro k hk
        rw [hd]
        exact all_level_first hF hk
      -- a sample `(C - 1) / 2 + 1` clocks into symbol `i`
      have hsample : ∀ i k, i < 10 → k < C → d (w + (C * i + k)) = UartTx.symbol b i := by
        intro i k hi hk
        have hlt := UartTx.clock_lt hi hk
        rw [hfirst _ (by omega), ← UartTx.level_symbol (a := a) hi hk]
        congr 1
        omega
      have hidle : Delivers (UartFsm.step C) (UartFsm.emits C) m d w UartFsm.Idle [] := by
        apply UartFsm.idle_delivers hm
        intro k hk
        rw [hfirst k (by omega)]
        exact UartTx.level_before (by dsimp only; omega)
      have hframe : Delivers (UartFsm.step C) (UartFsm.emits C) m d (w + ((C - 1) / 2 + 9 * C + 3))
          UartFsm.Idle [b] := by
        refine hidle.silent_seq ?_
        intro t ht
        apply UartFsm.frame_delivers ht b (by omega) hC
        · exact hsample 0 0 (by omega) (by omega)
        · have hmid := hsample 0 ((C - 1) / 2 + 1) (by omega) (by omega)
          rw [Nat.mul_zero, Nat.zero_add] at hmid
          exact hmid
        · intro i hi
          have hbit := hsample (i + 1) ((C - 1) / 2 + 1) (by omega) (by omega)
          rw [UartTx.symbol_data (by omega) (by omega), Nat.add_sub_cancel] at hbit
          rw [← hbit]
          congr 1
          omega
      refine hframe.seq ?_
      intro t ht
      -- the machine is idle again before the next frame can start
      apply ih (List.Pairwise.of_cons hF) ht (τ := τ + (w + ((C - 1) / 2 + 9 * C + 3)))
      · intro r hr
        have hsep : a + 10 * C + 2 ≤ r.1 := List.rel_of_pairwise_cons hF hr
        omega
      · intro k
        rw [hd, List.all_cons, UartTx.level_after (by dsimp only; omega), Bool.true_and]
        simp only [Nat.add_assoc]
      · intro r hr
        have := hn r (List.mem_cons_of_mem _ hr)
        omega

/-- After a power-up with a low line. The machine looks at the line again after half a bit: either
it was a glitch, or the first frame has begun and is sampled early in its symbols. -/
theorem heard_low_delivers (h2 : 2 ≤ C) (hC : C ≤ 2 ^ 16) (hF : UartTx.Separate C F) (hm : m.Idle)
    (hd0 : d 0 = false) (hd : ∀ k, d (k + 1) = F.all (fun r => UartTx.level C r k)) {n : ℕ}
    (hn : ∀ r ∈ F, r.1 + 9 * C + (C - 1) / 2 + 5 ≤ n) (hnC : C + 1 ≤ n) :
    Delivers (UartFsm.step C) (UartFsm.emits C) m d n UartFsm.Idle (F.map Prod.snd) := by
  cases hmid : d ((C - 1) / 2 + 1) with
  | true =>
      obtain ⟨n', rfl⟩ := Nat.exists_eq_add_of_le (show 1 + (C - 1) / 2 + 1 ≤ n by omega)
      refine (UartFsm.glitch_delivers hm hC hd0 hmid).silent_seq ?_
      intro t ht
      apply link_delivers h2 hC hF ht (τ := (C - 1) / 2 + 1)
      · intro r hr
        -- a frame that had begun would have made the line low
        by_contra hlt
        rw [hd, List.all_eq_true] at hmid
        have hlow := UartTx.level_symbol (C := C) (a := r.1) (i := 0)
          (k := (C - 1) / 2 - (r.1 + 1)) (b := r.2) (by omega) (by omega)
        rw [show r.1 + 1 + (C * 0 + ((C - 1) / 2 - (r.1 + 1))) = (C - 1) / 2 by omega,
          hmid r hr] at hlow
        cases hlow
      · intro k
        rw [← hd]
        congr 1
        omega
      · intro r hr
        have := hn r hr
        omega
  | false =>
      cases F with
      | nil =>
          rw [hd] at hmid
          cases hmid
      | cons r F =>
          obtain ⟨a, b⟩ := r
          have hna : a + 9 * C + (C - 1) / 2 + 5 ≤ n := hn _ (List.mem_cons_self ..)
          obtain ⟨n', rfl⟩ := Nat.exists_eq_add_of_le (show (C - 1) / 2 + 9 * C + 3 ≤ n by omega)
          have hfirst : ∀ k, k ≤ a + 10 * C + 2 → d (k + 1) = UartTx.level C (a, b) k := by
            intro k hk
            rw [hd]
            exact all_level_first hF hk
          have hbegun : a + 1 ≤ (C - 1) / 2 := by
            by_contra hlt
            rw [hfirst _ (by omega), UartTx.level_before (by dsimp only; omega)] at hmid
            cases hmid
          have hbits : ∀ i < 8, d ((C - 1) / 2 + 1 + C * (i + 1)) = b.getLsbD i := by
            intro i hi
            have hle : C * (i + 1) ≤ C * 8 := Nat.mul_le_mul_left C (by omega)
            have hbit := UartTx.level_symbol (C := C) (a := a) (b := b) (i := i + 1)
              (k := (C - 1) / 2 - (a + 1)) (by omega) (by omega)
            rw [UartTx.symbol_data (by omega) (by omega), Nat.add_sub_cancel] at hbit
            rw [show (C - 1) / 2 + 1 + C * (i + 1) = (C - 1) / 2 + C * (i + 1) + 1 by omega,
              hfirst _ (by omega), ← hbit]
            congr 1
            omega
          refine (UartFsm.frame_delivers hm b (by omega) hC hd0 hmid hbits).seq ?_
          intro t ht
          apply link_delivers h2 hC (List.Pairwise.of_cons hF) ht (τ := (C - 1) / 2 + 9 * C + 2)
          · intro r hr
            have hsep : a + 10 * C + 2 ≤ r.1 := List.rel_of_pairwise_cons hF hr
            omega
          · intro k
            rw [show (C - 1) / 2 + 9 * C + 3 + k = (C - 1) / 2 + 9 * C + 2 + k + 1 by omega, hd,
              List.all_cons, UartTx.level_after (by dsimp only; omega), Bool.true_and]
          · intro r hr
            have := hn r (List.mem_cons_of_mem _ hr)
            omega

/-- What the machine has delivered from the frames `F`. -/
def heardBytes (C : ℕ) (m : UartFsm) (o_Tx_Serial : Bool) (F : List (ℕ × BitVec 8)) (n : ℕ) :
    List (BitVec 8) :=
  events (fun q => UartFsm.emits C (run (UartFsm.step C) m (heard C o_Tx_Serial F) q)
    (heard C o_Tx_Serial F q)) n

section Heard

variable (h2 : 2 ≤ C) (hC : C ≤ 2 ^ 16) (hm : m.Idle) (o_Tx_Serial : Bool)

include h2 hC hm

theorem heardBytes_eq (hF : UartTx.Separate C F) {n : ℕ}
    (hn : ∀ r ∈ F, r.1 + 9 * C + (C - 1) / 2 + 7 ≤ n) (hnC : C + 3 ≤ n) :
    heardBytes C m o_Tx_Serial F n = F.map Prod.snd := by
  cases o_Tx_Serial with
  | true =>
      have hidle : Delivers (UartFsm.step C) (UartFsm.emits C) m (heard C true F) 3
          UartFsm.Idle [] := by
        apply UartFsm.idle_delivers hm
        intro k hk
        match k with
        | 0 | 1 | 2 => rfl
      obtain ⟨n', rfl⟩ := Nat.exists_eq_add_of_le (show 3 ≤ n by omega)
      refine (hidle.silent_seq ?_ : Delivers _ _ _ _ _ UartFsm.Idle _).events_eq
      intro t ht
      apply link_delivers h2 hC hF ht (τ := 0)
      · exact fun r _ => Nat.zero_le _
      · intro k
        rw [Nat.zero_add, Nat.add_comm]
        rfl
      · intro r hr
        have := hn r hr
        omega
  | false =>
      have hidle : Delivers (UartFsm.step C) (UartFsm.emits C) m (heard C false F) 2
          UartFsm.Idle [] := by
        apply UartFsm.idle_delivers hm
        intro k hk
        match k with
        | 0 | 1 => rfl
      obtain ⟨n', rfl⟩ := Nat.exists_eq_add_of_le (show 2 ≤ n by omega)
      refine (hidle.silent_seq ?_ : Delivers _ _ _ _ _ UartFsm.Idle _).events_eq
      intro t ht
      apply heard_low_delivers h2 hC hF ht rfl
      · intro k
        rw [Nat.add_comm]
        rfl
      · intro r hr
        have := hn r hr
        omega
      · omega

/-- Nothing but the bytes of the frames is delivered, in their order. -/
theorem heardBytes_le_taken (hF : UartTx.Separate C F) {M : ℕ} (hM : ∀ r ∈ F, r.1 < M) (n : ℕ) :
    heardBytes C m o_Tx_Serial F n <+: F.map Prod.snd := by
  rw [← heardBytes_eq h2 hC hm o_Tx_Serial hF (n := n + M + 10 * C + 7)
    (fun r hr => by have := hM r hr; omega) (by omega)]
  exact events_mono _ (by omega)

/-- The frames up to a request are delivered before the next one is on the line. -/
theorem taken_le_heardBytes {F' : List (ℕ × BitVec 8)} (hF : UartTx.Separate C (F ++ F')) {n : ℕ}
    (hn : ∀ r ∈ F, r.1 + 9 * C + (C - 1) / 2 + 7 ≤ n) :
    F.map Prod.snd <+: heardBytes C m o_Tx_Serial (F ++ F') n := by
  rcases List.eq_nil_or_concat' F with rfl | ⟨F₀, r, rfl⟩
  · exact List.nil_prefix
  · have hsep := List.pairwise_append.mp hF
    have hlast := List.pairwise_append.mp hsep.1
    have hnr := hn r (by simp)
    have hdone := heardBytes_eq h2 hC hm o_Tx_Serial hsep.1
      (n := r.1 + 9 * C + (C - 1) / 2 + 7) (by
        intro r' hr'
        rw [List.mem_append, List.mem_singleton] at hr'
        rcases hr' with hr' | rfl
        · have := hlast.2.2 r' hr' r (List.mem_singleton_self r)
          omega
        · exact le_refl _) (by omega)
    -- up to there the later frames leave the line high
    have hsame : ∀ k < r.1 + 9 * C + (C - 1) / 2 + 7,
        heard C o_Tx_Serial (F₀ ++ [r]) k = heard C o_Tx_Serial (F₀ ++ [r] ++ F') k := by
      intro k hk
      match k with
      | 0 | 1 | 2 => rfl
      | k + 3 =>
          have hlater : F'.all (fun r => UartTx.level C r k) = true := by
            apply all_level_before
            intro r' hr'
            have := hsep.2.2 r (by simp) r' hr'
            omega
          show (F₀ ++ [r]).all _ = (F₀ ++ [r] ++ F').all _
          rw [@List.all_append _ _ _ F', hlater, Bool.and_true]
    have hbytes : heardBytes C m o_Tx_Serial (F₀ ++ [r]) (r.1 + 9 * C + (C - 1) / 2 + 7)
        = heardBytes C m o_Tx_Serial (F₀ ++ [r] ++ F') (r.1 + 9 * C + (C - 1) / 2 + 7) := by
      apply events_congr
      intro k hk
      rw [hsame k hk, run_congr (UartFsm.step C) m (fun j hj => hsame j (by omega))]
    rw [← hdone, hbytes]
    exact events_mono _ hnr

end Heard

end OneClock

/-! ## The link of the first design -/

/-- A transmitter and a receiver of the first design, both clocked by `osc_clk`. -/
structure SerialLink where
  uart_tx1 : UartTx
  uart_rx1 : UartDomain

namespace SerialLink

/-- One rising edge of `osc_clk`. -/
def step (CLKS_PER_BIT : ℕ) (s : SerialLink) (p : UartTx.Ports) : SerialLink where
  uart_tx1 := s.uart_tx1.step CLKS_PER_BIT p
  uart_rx1 := s.uart_rx1.step CLKS_PER_BIT s.uart_tx1.o_Tx_Serial

/-- The initial values; `o_Tx_Serial` has none. -/
structure PowerUp (s : SerialLink) : Prop where
  uart_tx1 : s.uart_tx1.PowerUp
  r_Rx_Data_R : s.uart_rx1.r_Rx_Data_R = true
  r_Rx_Data : s.uart_rx1.r_Rx_Data = true
  r_Clock_Count : s.uart_rx1.fsm.r_Clock_Count = 0
  r_Bit_Index : s.uart_rx1.fsm.r_Bit_Index = 0
  r_Rx_Byte : s.uart_rx1.fsm.r_Rx_Byte = 0
  r_Rx_DV : s.uart_rx1.fsm.r_Rx_DV = false
  r_SM_Main : s.uart_rx1.fsm.r_SM_Main = .s_IDLE

/-- The bytes the receiver has told by the first `n` edges. -/
def received (C : ℕ) (s : SerialLink) (u : ℕ → UartTx.Ports) (n : ℕ) : List (BitVec 8) :=
  events (fun k => (run (step C) s u (k + 1)).uart_rx1.told) n

/-- The bytes the transmitter has taken by the first `n` edges. -/
def sent (C : ℕ) (s : SerialLink) (u : ℕ → UartTx.Ports) (n : ℕ) : List (BitVec 8) :=
  events (fun k => (run (step C) s u k).uart_tx1.accepts (u k)) n

section Run

variable {C : ℕ} {s : SerialLink} {u : ℕ → UartTx.Ports}

theorem run_uart_tx1 (n : ℕ) :
    (run (step C) s u n).uart_tx1 = run (UartTx.step C) s.uart_tx1 u n :=
  run_proj SerialLink.uart_tx1 (fun _ p => p) (fun _ _ => rfl) s u n

theorem run_uart_rx1 (n : ℕ) :
    (run (step C) s u n).uart_rx1
      = run (UartDomain.step C) s.uart_rx1
          (fun k => (run (UartTx.step C) s.uart_tx1 u k).o_Tx_Serial) n := by
  have hrx : (run (step C) s u n).uart_rx1
      = run (UartDomain.step C) s.uart_rx1
          (fun k => (run (step C) s u k).uart_tx1.o_Tx_Serial) n :=
    run_proj SerialLink.uart_rx1 (fun t _ => t.uart_tx1.o_Tx_Serial) (fun _ _ => rfl) s u n
  simpa only [run_uart_tx1] using hrx

variable (hC1 : 1 ≤ C) (hC : C ≤ 2 ^ 16) (h : s.PowerUp)

include hC1 hC h

/-- Up to edge `n` the machine hears the frames of the requests taken by then. -/
theorem seen_eq_heard {n q : ℕ} (hq : q < n) :
    seen (fun k => (run (UartTx.step C) s.uart_tx1 u k).o_Tx_Serial) q
      = heard C s.uart_tx1.o_Tx_Serial (UartTx.taken C s.uart_tx1 u n) q := by
  match q with
  | 0 | 1 | 2 => rfl
  | k + 3 =>
      show (run (UartTx.step C) s.uart_tx1 u (k + 1)).o_Tx_Serial = _
      rw [UartTx.run_serial hC1 hC h.uart_tx1.idle, heard,
        UartTx.all_level_of_le (show k ≤ n by omega)]

theorem received_eq (n : ℕ) {M : ℕ} (hM : n ≤ M) :
    received C s u n = heardBytes C s.uart_rx1.fsm s.uart_tx1.o_Tx_Serial
      (UartTx.taken C s.uart_tx1 u M) n := by
  have hflagged : s.uart_rx1.fsm.Flagged := by
    intro hDV
    rw [h.r_Rx_DV] at hDV
    cases hDV
  have htold := UartDomain.events_told (C := C) h.r_Rx_Data_R h.r_Rx_Data hflagged
    (fun k => (run (UartTx.step C) s.uart_tx1 u k).o_Tx_Serial) n
  unfold received heardBytes
  simp only [run_uart_rx1]
  rw [htold]
  apply events_congr
  intro q hq
  rw [seen_eq_heard hC1 hC h (show q < M by omega),
    run_congr (UartFsm.step C) _ (fun j hj => seen_eq_heard hC1 hC h (show j < M by omega))]

end Run

/-- **The link.** With the same `CLKS_PER_BIT`, any from 2 to 65536, on both sides: at any time the
receiver has told some of the first bytes that were taken, each one once and in order, and a byte
is told within ten symbols and five clocks after it was taken. -/
theorem uart_link (C : ℕ) (h2 : 2 ≤ C) (hC : C ≤ 2 ^ 16) (s : SerialLink) (h : s.PowerUp)
    (u : ℕ → UartTx.Ports) (n : ℕ) :
    received C s u n <+: sent C s u n ∧ sent C s u n <+: received C s u (n + 10 * C + 5) := by
  have hsent : ∀ n, sent C s u n = (UartTx.taken C s.uart_tx1 u n).map Prod.snd := by
    intro n
    rw [← UartTx.accepted_eq]
    unfold sent UartTx.accepted
    simp only [run_uart_tx1]
  have hm : s.uart_rx1.fsm.Idle := ⟨h.r_SM_Main, h.r_Rx_DV⟩
  have htx := h.uart_tx1.idle
  constructor
  · rw [received_eq (by omega) hC h n (le_refl n), hsent]
    exact heardBytes_le_taken h2 hC hm _ (UartTx.separate_taken (by omega) hC htx u n)
      (fun r hr => UartTx.taken_lt hr) n
  · -- the requests of the first `n` edges and those that come later
    obtain ⟨F', hF'⟩ := events_mono (fun k => ((run (UartTx.step C) s.uart_tx1 u k).accepts
      (u k)).map (fun b => (k, b))) (show n ≤ n + 10 * C + 5 by omega)
    have htaken : UartTx.taken C s.uart_tx1 u (n + 10 * C + 5)
        = UartTx.taken C s.uart_tx1 u n ++ F' := hF'.symm
    have hsep := UartTx.separate_taken (by omega) hC htx u (n + 10 * C + 5)
    rw [received_eq (by omega) hC h _ (le_refl _), hsent, htaken]
    rw [htaken] at hsep
    apply taken_le_heardBytes h2 hC hm _ hsep
    intro r hr
    have := UartTx.taken_lt hr
    omega

/-! ### Two bytes with two clocks a bit -/

/-- Everything cleared, but for the synchroniser: the line starts low. -/
def poweredUp : SerialLink where
  uart_tx1 := UartTx.poweredUp
  uart_rx1 :=
    { r_Rx_Data_R := true
      r_Rx_Data := true
      fsm :=
        { r_SM_Main := .s_IDLE, r_Clock_Count := 0, r_Bit_Index := 0, r_Rx_Byte := 0
          r_Rx_DV := false, o_Rx_Byte := 0 } }

theorem uart_link_two : [65, 87] <+: received 2 poweredUp UartTx.fourRequests 48 := by
  have hlink := uart_link 2 (by omega) (by omega) poweredUp
    ⟨UartTx.poweredUp_powerUp, rfl, rfl, rfl, rfl, rfl, rfl, rfl⟩ UartTx.fourRequests 23
  rw [show sent 2 poweredUp UartTx.fourRequests 23 = [65, 87] by decide] at hlink
  exact hlink.2

end SerialLink

/-! ## A transmitter with a clock of its own

Edge `k` of the transmitter is at the time `φ + T k`, measured in clocks of the receiver. -/

namespace UartTx

/-- The edges of the transmitter up to the time `t`. -/
def edges (φ T t : ℚ) : ℕ := ⌊(t - φ) / T + 1⌋₊

/-- The line at the time `t`. -/
def lineOf (C : ℕ) (m : UartTx) (u : ℕ → Ports) (φ T t : ℚ) : Bool :=
  (run (step C) m u (edges φ T t)).o_Tx_Serial

/-- The frame of a request, as the receiver's clock measures it. -/
def frameOf {C : ℕ} {T : ℚ} (φ : ℚ) (hslow : 672 ≤ C * T) (hfast : C * T ≤ 736)
    (r : ℕ × BitVec 8) : Frame where
  t0 := φ + T * (r.1 + 1)
  P := C * T
  byte := r.2
  P_ge := hslow
  P_le := hfast

section TwoClocks

variable {C : ℕ} {φ T : ℚ} (hT : 0 < T) (hslow : 672 ≤ C * T) (hfast : C * T ≤ 736)

include hT

theorem lt_edges {t : ℚ} {k : ℕ} : k < edges φ T t ↔ φ + T * k ≤ t := by
  unfold edges
  rw [← Nat.succ_le_iff, Nat.le_floor_iff' (Nat.succ_ne_zero k), Nat.cast_succ,
    add_le_add_iff_right, le_div_iff₀ hT]
  constructor <;> intro h <;> linarith

theorem edges_mono {t t' : ℚ} (h : t ≤ t') : edges φ T t ≤ edges φ T t' := by
  by_contra hlt
  rw [not_le, lt_edges hT] at hlt
  have hself := (lt_edges hT).mpr (hlt.trans h)
  exact lt_irrefl _ hself

/-- After its edge `k` the transmitter's clock gives the level of the frame. -/
theorem frameOf_level (r : ℕ × BitVec 8) {t : ℚ} {k : ℕ} (ht : edges φ T t = k + 1) :
    (frameOf φ hslow hfast r).level t = level C r k := by
  have hedge : ∀ j : ℕ, j ≤ k ↔ φ + T * j ≤ t := by
    intro j
    rw [← lt_edges hT, ht, Nat.lt_succ_iff]
  have hP : (frameOf φ hslow hfast r).P = C * T := rfl
  have ht0 : (frameOf φ hslow hfast r).t0 = φ + T * (r.1 + 1) := rfl
  by_cases hbefore : k < r.1 + 1
  · rw [level_before (by omega), Frame.level_before]
    rw [← not_le, hedge] at hbefore
    push_cast at hbefore
    linarith
  · by_cases hafter : r.1 + 1 + 9 * C ≤ k
    · rw [level_after hafter, Frame.level_after]
      rw [hedge] at hafter
      push_cast at hafter
      rw [hP, ht0]
      linarith
    · -- within symbol `i`
      have hC : 0 < C := by omega
      obtain ⟨i, hi⟩ : ∃ i, (k - (r.1 + 1)) / C = i := ⟨_, rfl⟩
      have hdiv := Nat.div_add_mod (k - (r.1 + 1)) C
      have hmod := Nat.mod_lt (k - (r.1 + 1)) hC
      rw [hi] at hdiv
      have hi10 : i < 10 := by
        rw [← hi, Nat.div_lt_iff_lt_mul hC]
        omega
      have hlow : r.1 + 1 + C * i ≤ k := by omega
      have hhigh : ¬ r.1 + 1 + C * (i + 1) ≤ k := by
        rw [Nat.mul_succ]
        omega
      rw [hedge] at hlow hhigh
      push_cast at hlow hhigh
      rw [not_le] at hhigh
      have hlevel : level C r k = symbol r.2 i := by
        unfold level
        rw [if_pos ⟨by omega, by omega⟩, hi]
      rw [hlevel, Frame.level_bit (i := i) _ hi10]
      · rfl
      · rw [hP, ht0]
        linarith
      · rw [hP, ht0]
        linarith

/-- The frames on the line one after the other. -/
theorem spaced_frameOf {F : List (ℕ × BitVec 8)} (hF : Separate C F) :
    Spaced (F.map (frameOf φ hslow hfast)) := by
  unfold Spaced
  rw [List.pairwise_map]
  refine hF.imp ?_
  intro r r' hsep
  have hcast : (r.1 : ℚ) + 10 * C + 2 ≤ r'.1 := by exact_mod_cast hsep
  have hmul := mul_le_mul_of_nonneg_left hcast hT.le
  show φ + T * (r.1 + 1) + 10 * (C * T) ≤ φ + T * (r'.1 + 1)
  linarith

/-- A line that is idle before the first edge is that of the frames of the requests taken so
far. -/
theorem lineOf_eq (hC1 : 1 ≤ C) (hC : C ≤ 2 ^ 16) {m : UartTx} (hm : m.Idle) {u : ℕ → Ports}
    {t : ℚ} {M : ℕ} (hidle : edges φ T t = 0 → m.o_Tx_Serial = true) (hM : edges φ T t ≤ M) :
    lineOf C m u φ T t = line ((taken C m u M).map (frameOf φ hslow hfast)) t := by
  unfold lineOf line
  rw [List.all_map]
  by_cases h0 : edges φ T t = 0
  · rw [h0, run_zero, hidle h0]
    symm
    rw [List.all_eq_true]
    intro r _
    apply Frame.level_before
    -- edge 0 has not come yet
    have hnone : ¬ φ + T * ((0 : ℕ) : ℚ) ≤ t := by
      rw [← lt_edges hT, h0]
      exact lt_irrefl 0
    have hpos : 0 ≤ T * ((r.1 : ℚ) + 1) := by positivity
    push_cast at hnone
    show t < φ + T * (r.1 + 1)
    linarith
  · obtain ⟨k, hk⟩ := Nat.exists_eq_succ_of_ne_zero h0
    rw [hk, run_serial hC1 hC hm, ← all_level_of_le (show k ≤ M by omega)]
    congr 1
    funext r
    exact (frameOf_level hT hslow hfast r hk).symm

end TwoClocks

/-- A request that is taken is one that is made. -/
theorem taken_request {C : ℕ} {m : UartTx} {u : ℕ → Ports} {n : ℕ} {r : ℕ × BitVec 8}
    (hr : r ∈ taken C m u n) : (u r.1).i_Tx_DV = true := by
  induction n with
  | zero => cases hr
  | succ n ih =>
      rw [taken_succ, List.mem_append] at hr
      rcases hr with hr | hr
      · exact ih hr
      · unfold accepts at hr
        split_ifs at hr with hreq
        · simp only [Option.map_some, Option.toList_some, List.mem_singleton] at hr
          rw [hr]
          exact hreq.2
        · cases hr

end UartTx

namespace CommandPath

/-- The bytes `uart_rx1` has told by the first `n` edges. -/
def told (s : CommandPath) (u : ℕ → Bool) (n : ℕ) : List (BitVec 8) :=
  events (fun k => (run step s u (k + 1)).uart_rx1.received) n

theorem told_mono (s : CommandPath) (u : ℕ → Bool) {m n : ℕ} (h : m ≤ n) :
    told s u m <+: told s u n := events_mono _ h

theorem told_congr (s : CommandPath) {u v : ℕ → Bool} {n : ℕ} (h : ∀ k < n, u k = v k) :
    told s u n = told s v n := by
  apply events_congr
  intro k hk
  rw [run_congr step s (fun j hj => h j (by omega))]

section TwoClocks

variable {C : ℕ} {φ T : ℚ} (hT : 0 < T) (hslow : 672 ≤ C * T) (hfast : C * T ≤ 736)
  {s : CommandPath} (hs : s.uart_rx1.PowerUp) {F : List (ℕ × BitVec 8)}

include hT hs

/-- `uart_rx1` tells a byte before the transmitter can take the next one. -/
theorem told_frames (hF : UartTx.Separate C F) (h0 : ∀ r ∈ F, 0 ≤ φ + T * (r.1 + 1)) {n : ℕ}
    (hn : ∀ r ∈ F, φ + T * (r.1 + 1 + 10 * C) ≤ n + 20) :
    told s (serial (F.map (UartTx.frameOf φ hslow hfast))) n = F.map Prod.snd := by
  have hevents := events_uart_rx1 hs (UartTx.spaced_frameOf hT hslow hfast hF) (n := n) (by
    intro f hf
    obtain ⟨r, hr, rfl⟩ := List.mem_map.mp hf
    exact h0 r hr) (by
    intro f hf
    obtain ⟨r, hr, rfl⟩ := List.mem_map.mp hf
    have hend := hn r hr
    show φ + T * (r.1 + 1) + 10 * (C * T) ≤ n + 20
    linarith)
  rw [List.map_map] at hevents
  exact hevents

/-- Once the requests `F` and one more have been taken, `uart_rx1` has told the bytes of `F`, and
the last byte or not. -/
theorem told_before_last {r : ℕ × BitVec 8} (hF : UartTx.Separate C (F ++ [r]))
    (h0 : ∀ r' ∈ F ++ [r], 0 ≤ φ + T * (r'.1 + 1)) {x : ℕ → Bool}
    (hx : x = serial ((F ++ [r]).map (UartTx.frameOf φ hslow hfast))) {n : ℕ}
    (hn : φ + T * r.1 ≤ n) :
    told s x n = F.map Prod.snd ∨ told s x n = (F ++ [r]).map Prod.snd := by
  have hsep := List.pairwise_append.mp hF
  have hlast : ∀ r' ∈ F, (r'.1 : ℚ) + 10 * C + 2 ≤ r.1 := by
    intro r' hr'
    exact_mod_cast hsep.2.2 r' hr' r (List.mem_singleton_self r)
  -- before the edge that took the last request only the frames of `F` are on the line
  have hlower : told s x ⌊φ + T * r.1⌋₊ = F.map Prod.snd := by
    rw [← told_frames hT hslow hfast hs hsep.1 (fun r' hr' => h0 r' (by simp [hr']))
      (n := ⌊φ + T * r.1⌋₊) (by
        intro r' hr'
        have hmul := mul_le_mul_of_nonneg_left (hlast r' hr') hT.le
        have hfloor := Nat.lt_floor_add_one (φ + T * r.1)
        linarith)]
    apply told_congr
    intro k hk
    have hlt : (k : ℚ) + 1 ≤ φ + T * r.1 := by
      exact_mod_cast (Nat.le_floor_iff' (Nat.succ_ne_zero k)).mp hk
    have hhigh : (UartTx.frameOf φ hslow hfast r).level k = true := by
      apply Frame.level_before
      show (k : ℚ) < φ + T * (r.1 + 1)
      linarith
    rw [hx]
    unfold serial line
    rw [List.map_append, List.all_append]
    simp [hhigh]
  have hle : ⌊φ + T * r.1⌋₊ ≤ n := by
    rw [← Nat.floor_natCast (R := ℚ) n]
    exact Nat.floor_le_floor hn
  -- with enough clocks all bytes are told
  obtain ⟨N, hN⟩ := exists_nat_ge (φ + T * (r.1 + 1 + 10 * C))
  have hupper : told s x (n + N) = (F ++ [r]).map Prod.snd := by
    rw [hx]
    apply told_frames hT hslow hfast hs hF h0
    intro r' hr'
    have hr'r : (r'.1 : ℚ) ≤ r.1 := by
      rw [List.mem_append, List.mem_singleton] at hr'
      rcases hr' with hr' | rfl
      · have hbefore := hlast r' hr'
        have hC : (0 : ℚ) ≤ C := by positivity
        linarith
      · exact le_refl _
    have hmul := mul_le_mul_of_nonneg_left hr'r hT.le
    push_cast
    linarith
  have hbelow : F.map Prod.snd <+: told s x n := hlower ▸ told_mono s x hle
  have habove : told s x n <+: F.map Prod.snd ++ [r.2] := by
    have hall : (F ++ [r]).map Prod.snd = F.map Prod.snd ++ [r.2] := by simp
    rw [← hall, ← hupper]
    exact told_mono s x (by omega)
  rcases List.prefix_concat_iff.mp habove with heq | hsame
  · exact Or.inr (by simp [heq])
  · exact Or.inl (hsame.eq_of_length_le hbelow.length_le)

end TwoClocks

/-- **Two boards.** A transmitter with a clock of its own, of the period `T` and the phase `φ` in
clocks of the receiver, sends to `top` with symbols between 672 and 736 clocks. No request is made
whose frame would start before `top` is powered up, and if `top` is powered up before the first edge
of the transmitter, it finds an idle line. Then at any time `uart_rx1` has told each
byte that the transmitter took once and in order, but for the byte that is being sent; and the
tuning is that of the command table on these bytes. -/
theorem tuned_by_uart_tx (C : ℕ) (hC : C ≤ 2 ^ 16) (φ T : ℚ) (hT : 0 < T) (hslow : 672 ≤ C * T)
    (hfast : C * T ≤ 736) (m : UartTx) (hm : m.PowerUp) (u : ℕ → UartTx.Ports)
    (hquiet : ∀ k : ℕ, φ + T * (k + 1) < 0 → (u k).i_Tx_DV = false)
    (hidle : 0 < φ → m.o_Tx_Serial = true) (s : CommandPath)
    (hs : s.uart_rx1.PowerUp) (n : ℕ) :
    ∃ bytes : List (BitVec 8),
      (bytes = UartTx.accepted C m u (UartTx.edges φ T n) ∨
        (run (UartTx.step C) m u (UartTx.edges φ T n)).r_SM_Main ≠ .s_IDLE ∧
          bytes = (UartTx.accepted C m u (UartTx.edges φ T n)).dropLast) ∧
      told s (fun k => UartTx.lineOf C m u φ T k) n = bytes ∧
      (run step s (fun k => UartTx.lineOf C m u φ T k) (2 + n)).tuned
        = bytes.foldl command (run step s (fun k => UartTx.lineOf C m u φ T k) 2).tuned := by
  have hC1 : 1 ≤ C := by
    rcases Nat.eq_zero_or_pos C with rfl | hpos
    · simp at hslow
      linarith
    · exact hpos
  have hsep := UartTx.separate_taken hC1 hC hm.idle u (UartTx.edges φ T n)
  have h0 : ∀ r ∈ UartTx.taken C m u (UartTx.edges φ T n), 0 ≤ φ + T * (r.1 + 1) := by
    intro r hr
    by_contra hneg
    have hDV := UartTx.taken_request hr
    rw [hquiet r.1 (not_le.mp hneg)] at hDV
    cases hDV
  -- up to now the line is that of the frames of the requests that have been taken
  have hline : told s (fun k => UartTx.lineOf C m u φ T k) n
      = told s (serial ((UartTx.taken C m u (UartTx.edges φ T n)).map
          (UartTx.frameOf φ hslow hfast))) n := by
    apply told_congr
    intro k hk
    refine UartTx.lineOf_eq hT hslow hfast hC1 hC hm.idle ?_ ?_
    · intro hnone
      apply hidle
      have hfirst := (UartTx.lt_edges hT (φ := φ) (t := k) (k := 0)).not.mp (by omega)
      have hk0 : (0 : ℚ) ≤ k := by positivity
      push_cast at hfirst
      linarith
    · apply UartTx.edges_mono hT
      exact_mod_cast hk.le
  refine ⟨told s (fun k => UartTx.lineOf C m u φ T k) n, ?_, rfl, run_tuned s _ n⟩
  rw [hline, UartTx.accepted_eq]
  cases UartTx.run_phase hC1 hC hm.idle u (UartTx.edges φ T n) with
  | idle hidle hF =>
      left
      apply told_frames hT hslow hfast hs hsep h0
      intro r hr
      have hend : r.1 + 1 + 10 * C < UartTx.edges φ T n := by
        have := hF r hr
        omega
      rw [UartTx.lt_edges hT] at hend
      push_cast at hend
      linarith
  | sending F a b i k hF hF' hi hk hM hsend =>
      have hn : φ + T * a ≤ n := (UartTx.lt_edges hT).mp (by omega)
      rw [hF] at hsep h0 ⊢
      rcases told_before_last hT hslow hfast hs hsep h0 rfl hn with hbytes | hbytes
      · refine Or.inr ⟨?_, by rw [hbytes]; simp⟩
        rw [hsend.state_eq]
        exact UartTx.sends_ne_idle i
      · exact Or.inl hbytes
  | finished F a b hF hF' hM hfin =>
      have hn : φ + T * a ≤ n := (UartTx.lt_edges hT).mp (by omega)
      rw [hF] at hsep h0 ⊢
      rcases told_before_last hT hslow hfast hs hsep h0 rfl hn with hbytes | hbytes
      · refine Or.inr ⟨?_, by rw [hbytes]; simp⟩
        rw [hfin.state_eq]
        decide
      · exact Or.inl hbytes

/-! ### A slow transmitter -/

/-- The command `m` in the first clock. -/
def oneRequest (n : ℕ) : UartTx.Ports where
  i_Tx_DV := decide (n = 0)
  i_Tx_Byte := 109

/-- A transmitter after power-up, with an idle line. -/
def idleTransmitter : UartTx := { UartTx.poweredUp with o_Tx_Serial := true }

/-- One clock a symbol, and 700 clocks of `top` for one of the transmitter. -/
theorem tuned_by_uart_tx_one :
    (run step poweredUp
        (fun k => UartTx.lineOf 1 idleTransmitter oneRequest (1 / 2) 700 k) 9002).tuned
      = command (run step poweredUp
          (fun k => UartTx.lineOf 1 idleTransmitter oneRequest (1 / 2) 700 k) 2).tuned 109 := by
  have hedges : UartTx.edges (1 / 2) 700 ((9000 : ℕ) : ℚ) = 13 := by
    unfold UartTx.edges
    rw [Nat.floor_eq_iff (by norm_num)]
    norm_num
  obtain ⟨bytes, hbytes, -, htuned⟩ := tuned_by_uart_tx 1 (by omega) (1 / 2) 700 (by norm_num)
    (by norm_num) (by norm_num) idleTransmitter ⟨rfl, rfl, rfl, rfl, rfl, rfl⟩ oneRequest
    (by
      intro k hk
      have : (0 : ℚ) ≤ k := by positivity
      linarith)
    (fun _ => rfl)
    poweredUp ⟨rfl, rfl, rfl, rfl, rfl, rfl, rfl, rfl⟩ 9000
  rw [hedges] at hbytes
  rcases hbytes with hall | ⟨hbusy, -⟩
  · rw [hall, show UartTx.accepted 1 idleTransmitter oneRequest 13 = [109] by decide] at htuned
    exact htuned
  · exact absurd (by decide) hbusy

end CommandPath

end OneBitSDR
