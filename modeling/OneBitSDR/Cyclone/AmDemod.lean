import OneBitSDR.Clocked.Component
import OneBitSDR.Signal.TwosComplement

set_option autoImplicit false

/-! # `am_demod.sv`: the AM demodulator

The demodulator squares `i_in` and `q_in` in two multipliers, registers the sum and takes its
square root; a shift register of ten flops carries `in_valid` along. The multiplier and the
square root are vendor blocks, taken as components `lpm_mult` and `altsqrt` of which only the
latency is known. The data takes `2 + 1 + 8` clocks and the valid bit takes ten, so on a
`demod_valid` cycle `demod` belongs to the inputs of the clock before the valid one.
-/

namespace OneBitSDR

open Clocked Signal

/-! ## The vendor blocks -/

/-- A multiplier as `am_demod` and `mixer` instantiate `lpm_mult`. -/
abbrev LpmMult (WIDTH : ℕ) := Component (BitVec WIDTH × BitVec WIDTH) (BitVec (WIDTH * 2))

/-- A square root as `am_demod` instantiates `altsqrt`. -/
abbrev AltSqrt (WIDTH : ℕ) := Component (BitVec (WIDTH * 2 + 1)) (BitVec WIDTH)

/-- The signed product in `WIDTH * 2` bits. -/
def signedProduct (WIDTH : ℕ) (x : BitVec WIDTH × BitVec WIDTH) : BitVec (WIDTH * 2) :=
  BitVec.ofInt (WIDTH * 2) (x.1.toInt * x.2.toInt)

/-- The low `WIDTH` bits of the integer square root. -/
def floorSqrt (WIDTH : ℕ) (radical : BitVec (WIDTH * 2 + 1)) : BitVec WIDTH :=
  BitVec.ofNat WIDTH (Nat.sqrt radical.toNat)

/-! ## The module -/

/-- The registers of `am_demod`, those of its vendor blocks included. -/
structure AmDemod {WIDTH : ℕ} (lpm_mult : LpmMult WIDTH) (altsqrt : AltSqrt WIDTH) where
  sqrt : altsqrt.State
  i_square : lpm_mult.State
  q_square : lpm_mult.State
  sum : BitVec (WIDTH * 2 + 1)
  demod_valid_pipe : BitVec 9
  demod_valid : Bool

/-- The input ports of `am_demod`; `dontcare` is the value a reset leaves in `sum`. -/
structure AmDemodIn (WIDTH : ℕ) where
  clock_sreset : Bool
  in_valid : Bool
  i_in : BitVec WIDTH
  q_in : BitVec WIDTH
  dontcare : BitVec (WIDTH * 2 + 1)

namespace AmDemod

variable {WIDTH : ℕ} {lpm_mult : LpmMult WIDTH} {altsqrt : AltSqrt WIDTH}

/-- The output port `demod`. -/
def demod (s : AmDemod lpm_mult altsqrt) : BitVec WIDTH := altsqrt.out s.sqrt

/-- One rising edge of `clock`. The shift register of the valid bit moves outside reset only and
is not cleared by it. -/
def step (s : AmDemod lpm_mult altsqrt) (u : AmDemodIn WIDTH) : AmDemod lpm_mult altsqrt where
  sqrt := altsqrt.step s.sqrt s.sum
  i_square := lpm_mult.step s.i_square (u.i_in, u.i_in)
  q_square := lpm_mult.step s.q_square (u.q_in, u.q_in)
  sum :=
    if u.clock_sreset then u.dontcare
    else BitVec.cons false (lpm_mult.out s.i_square) + BitVec.cons false (lpm_mult.out s.q_square)
  demod_valid_pipe :=
    if u.clock_sreset then s.demod_valid_pipe else shiftIn s.demod_valid_pipe u.in_valid
  demod_valid := if u.clock_sreset then s.demod_valid else s.demod_valid_pipe.getLsbD 8

/-! One edge, register by register. -/

section Step

variable {s : AmDemod lpm_mult altsqrt} {u : AmDemodIn WIDTH}

theorem step_sum (h : u.clock_sreset = false) :
    (s.step u).sum
      = BitVec.cons false (lpm_mult.out s.i_square)
        + BitVec.cons false (lpm_mult.out s.q_square) := by
  simp [step, h]

theorem step_pipe (h : u.clock_sreset = false) :
    (s.step u).demod_valid_pipe = shiftIn s.demod_valid_pipe u.in_valid := by
  simp [step, h]

theorem step_valid (h : u.clock_sreset = false) :
    (s.step u).demod_valid = s.demod_valid_pipe.getLsbD 8 := by
  simp [step, h]

theorem step_pipe_reset (h : u.clock_sreset = true) :
    (s.step u).demod_valid_pipe = s.demod_valid_pipe := by
  simp [step, h]

theorem step_valid_reset (h : u.clock_sreset = true) :
    (s.step u).demod_valid = s.demod_valid := by
  simp [step, h]

end Step

/-! ## The magnitude -/

/-- `I^2 + Q^2` over the integers. -/
def power (i q : BitVec WIDTH) : ℕ := i.toInt.natAbs ^ 2 + q.toInt.natAbs ^ 2

/-- `⌊√(I^2 + Q^2)⌋`. -/
def magnitude (i q : BitVec WIDTH) : ℕ := Nat.sqrt (power i q)

theorem two_mul_natAbs_le (b : BitVec WIDTH) : 2 * b.toInt.natAbs ≤ 2 ^ WIDTH := by
  have hl := BitVec.le_two_mul_toInt (x := b)
  have hu := BitVec.two_mul_toInt_lt (x := b)
  zify
  rw [show (2 : ℤ) * |b.toInt| = |2 * b.toInt| by rw [abs_mul]; rfl]
  exact abs_le.mpr ⟨by linarith, hu.le⟩

theorem four_mul_sq_le (b : BitVec WIDTH) : 4 * b.toInt.natAbs ^ 2 ≤ 2 ^ (WIDTH * 2) := by
  have h := Nat.pow_le_pow_left (two_mul_natAbs_le b) 2
  rw [← pow_mul] at h
  calc 4 * b.toInt.natAbs ^ 2 = (2 * b.toInt.natAbs) ^ 2 := by ring
    _ ≤ 2 ^ (WIDTH * 2) := h

theorem magnitude_lt (i q : BitVec WIDTH) : magnitude i q < 2 ^ WIDTH := by
  have hi := four_mul_sq_le i
  have hq := four_mul_sq_le q
  have hpos : 0 < 2 ^ (WIDTH * 2) := by positivity
  rw [magnitude, Nat.sqrt_lt', power, ← pow_mul]
  omega

/-- Squares come out of the multiplier unchanged. -/
theorem toNat_signedProduct_self (b : BitVec WIDTH) :
    (signedProduct WIDTH (b, b)).toNat = b.toInt.natAbs ^ 2 := by
  have h := four_mul_sq_le b
  have hpos : 0 < 2 ^ (WIDTH * 2) := by positivity
  show (BitVec.ofInt (WIDTH * 2) (b.toInt * b.toInt)).toNat = _
  rw [← Int.natAbs_mul_self, ← pow_two, BitVec.ofInt_natCast, BitVec.toNat_ofNat]
  exact Nat.mod_eq_of_lt (by omega)

/-- The root of the registered sum of two squares is the magnitude. -/
theorem floorSqrt_sum (i q : BitVec WIDTH) :
    (floorSqrt WIDTH (BitVec.cons false (signedProduct WIDTH (i, i))
      + BitVec.cons false (signedProduct WIDTH (q, q)))).toNat = magnitude i q := by
  have hi := four_mul_sq_le i
  have hq := four_mul_sq_le q
  have hpos : 0 < 2 ^ (WIDTH * 2) := by positivity
  have hsum : (BitVec.cons false (signedProduct WIDTH (i, i))
      + BitVec.cons false (signedProduct WIDTH (q, q))).toNat = power i q := by
    rw [BitVec.toNat_add, BitVec.toNat_cons', BitVec.toNat_cons', toNat_signedProduct_self,
      toNat_signedProduct_self]
    simp only [Bool.toNat_false, Nat.zero_shiftLeft, Nat.zero_add]
    exact Nat.mod_eq_of_lt (by rw [pow_succ 2 (WIDTH * 2)]; omega)
  rw [floorSqrt, hsum, BitVec.toNat_ofNat]
  exact Nat.mod_eq_of_lt (magnitude_lt i q)

/-! ## The two latencies -/

section Latency

variable {s : AmDemod lpm_mult altsqrt} {u : ℕ → AmDemodIn WIDTH}

/-- The data path: `demod` is the magnitude of the inputs presented eleven clocks ago, if the
edge that registered their sum was not a reset. -/
theorem demod_latency (hmult : lpm_mult.HasLatency 2 (signedProduct WIDTH))
    (hsqrt : altsqrt.HasLatency 8 (floorSqrt WIDTH)) (n : ℕ)
    (hr : (u (n + 2)).clock_sreset = false) :
    (run step s u (n + 11)).demod.toNat = magnitude (u n).i_in (u n).q_in := by
  -- two clocks in the multipliers, one in the register of the sum, eight in the square root
  have hi : lpm_mult.out (run step s u (n + 2)).i_square
      = signedProduct WIDTH ((u n).i_in, (u n).i_in) := by
    rw [run_proj AmDemod.i_square (fun _ v => (v.i_in, v.i_in)) (fun _ _ => rfl)]
    exact hmult _ _ n
  have hq : lpm_mult.out (run step s u (n + 2)).q_square
      = signedProduct WIDTH ((u n).q_in, (u n).q_in) := by
    rw [run_proj AmDemod.q_square (fun _ v => (v.q_in, v.q_in)) (fun _ _ => rfl)]
    exact hmult _ _ n
  have hsum : (run step s u (n + 3)).sum
      = BitVec.cons false (signedProduct WIDTH ((u n).i_in, (u n).i_in))
        + BitVec.cons false (signedProduct WIDTH ((u n).q_in, (u n).q_in)) := by
    rw [run_succ, step_sum hr, hi, hq]
  have hroot : altsqrt.out (run step s u (n + 3 + 8)).sqrt
      = floorSqrt WIDTH (run step s u (n + 3)).sum := by
    rw [run_proj AmDemod.sqrt (fun t _ => t.sum) (fun _ _ => rfl)]
    exact hsqrt _ _ (n + 3)
  calc (run step s u (n + 11)).demod.toNat
      = (floorSqrt WIDTH (run step s u (n + 3)).sum).toNat := congrArg BitVec.toNat hroot
    _ = magnitude (u n).i_in (u n).q_in := by rw [hsum, floorSqrt_sum]

/-- Without a reset the flops of the valid bit are a shift register. -/
theorem run_pipe {n : ℕ} (hr : ∀ k < n, (u k).clock_sreset = false) :
    (run step s u n).demod_valid_pipe
      = run shiftIn s.demod_valid_pipe (fun k => (u k).in_valid) n := by
  refine run_proj_of AmDemod.demod_valid_pipe (fun _ (v : AmDemodIn WIDTH) => v.in_valid) ?_
  intro k hk
  exact step_pipe (hr k hk)

/-- The control path: `demod_valid` is `in_valid` of ten clocks ago. -/
theorem demod_valid_latency (n : ℕ) (hr : ∀ j ≤ 9, (u (n + j)).clock_sreset = false) :
    (run step s u (n + 10)).demod_valid = (u n).in_valid := by
  have hpipe := run_pipe (s := run step s u n) (u := fun j => u (n + j)) (n := 9)
    (fun k hk => hr k (by omega))
  have hbit := shiftIn_bit (run step s u n).demod_valid_pipe (fun j => (u (n + j)).in_valid) 0 8
    (by omega)
  rw [run_succ, step_valid (hr 9 (le_refl 9)), run_add, hpipe]
  exact hbit

/-- The valid bit that the ten flops hold for `j` edges from now. -/
def inFlight (s : AmDemod lpm_mult altsqrt) : ℕ → Bool
  | 0 => s.demod_valid
  | j + 1 => s.demod_valid_pipe.getLsbD (8 - j)

/-- For nine edges without a reset `demod_valid` shows what the flops held at the start. -/
theorem demod_valid_inFlight {n : ℕ} (hn : n ≤ 9) (hr : ∀ k < n, (u k).clock_sreset = false) :
    (run step s u n).demod_valid = s.inFlight n := by
  cases n with
  | zero => rfl
  | succ n =>
      -- flop 8 still shows what flop `8 - n` held at the start
      have hinit := shiftIn_initial s.demod_valid_pipe (fun k => (u k).in_valid) n (8 - n) (by omega)
      rw [show 8 - n + n = 8 by omega] at hinit
      rw [run_succ, step_valid (hr n (by omega)), run_pipe (fun k hk => hr k (by omega)), hinit]
      rfl

/-- Cleared flops raise no pulse of their own. -/
theorem demod_valid_drained (hp : s.demod_valid_pipe = 0)
    (hr : ∀ n, (u n).clock_sreset = false) (n : ℕ) (hn : n ≤ 8) :
    (run step s u (n + 1)).demod_valid = false := by
  rw [demod_valid_inFlight (by omega) (fun k _ => hr k), inFlight, hp]
  exact BitVec.getLsbD_zero

end Latency

/-! ## The demodulator as a stream component

The valid bit overtakes the data by one clock. Cycle 0 below is any cycle, of a reset or not,
and no reset is active from cycle 1 on, so every valid input outside reset is some cycle
`k + 1`. -/

/-- What a consumer reads on the `demod_valid` cycles `11, …, n + 10`. -/
def answers (s : AmDemod lpm_mult altsqrt) (u : ℕ → AmDemodIn WIDTH) (n : ℕ) : List ℕ :=
  events (strobe (fun k => (run step s u (k + 11)).demod_valid)
    (fun k => (run step s u (k + 11)).demod.toNat)) n

/-- The magnitudes of the inputs presented on the `in_valid` cycles `1, …, n`. -/
def requests (u : ℕ → AmDemodIn WIDTH) (n : ℕ) : List ℕ :=
  events (strobe (fun k => (u (k + 1)).in_valid)
    (fun k => magnitude (u (k + 1)).i_in (u (k + 1)).q_in)) n

/-- No perfect square separates the power of the inputs from the power one clock before: the two
inputs have the same integer magnitude. -/
def Held (v w : AmDemodIn WIDTH) : Prop :=
  ∀ k, k ^ 2 ≤ power v.i_in v.q_in ↔ k ^ 2 ≤ power w.i_in w.q_in

theorem held_iff (v w : AmDemodIn WIDTH) :
    Held v w ↔ magnitude v.i_in v.q_in = magnitude w.i_in w.q_in := by
  unfold Held magnitude
  constructor
  · intro h
    apply le_antisymm
    · exact Nat.le_sqrt'.mpr ((h _).mp (Nat.sqrt_le' _))
    · exact Nat.le_sqrt'.mpr ((h _).mpr (Nat.sqrt_le' _))
  · intro h k
    rw [← Nat.le_sqrt', ← Nat.le_sqrt', h]

section Stream

variable {s : AmDemod lpm_mult altsqrt} {u : ℕ → AmDemodIn WIDTH}

/-- One more cycle of answers: the valid bit of cycle `n + 1` with the magnitude of cycle `n`. -/
theorem answers_succ (hmult : lpm_mult.HasLatency 2 (signedProduct WIDTH))
    (hsqrt : altsqrt.HasLatency 8 (floorSqrt WIDTH))
    (hu : ∀ n, (u (n + 1)).clock_sreset = false) (n : ℕ) :
    answers s u (n + 1) = answers s u n
      ++ (if (u (n + 1)).in_valid then [magnitude (u n).i_in (u n).q_in] else []) := by
  have hdata := demod_latency (s := s) hmult hsqrt n (hu (n + 1))
  have hvalid := demod_valid_latency (s := s) (u := u) (n + 1) (fun j _ => by
    rw [show n + 1 + j = n + j + 1 by omega]
    exact hu (n + j))
  rw [show n + 1 + 10 = n + 11 by omega] at hvalid
  rw [answers, events_strobe_succ, hvalid, hdata]
  rfl

theorem requests_succ (n : ℕ) :
    requests u (n + 1) = requests u n
      ++ (if (u (n + 1)).in_valid
        then [magnitude (u (n + 1)).i_in (u (n + 1)).q_in] else []) :=
  events_strobe_succ _ _ n

/-- **When the demodulator answers for the right inputs.** The `demod_valid` pulses are the
`in_valid` cycles ten clocks late, always. They carry the magnitudes of those very inputs, in
order, exactly for the streams in which every valid input has the integer magnitude of the
inputs one clock before. -/
theorem am_demod_answers_iff (hmult : lpm_mult.HasLatency 2 (signedProduct WIDTH))
    (hsqrt : altsqrt.HasLatency 8 (floorSqrt WIDTH))
    (hu : ∀ n, (u (n + 1)).clock_sreset = false) :
    (∀ n, (run step s u (n + 11)).demod_valid = (u (n + 1)).in_valid) ∧
    ((∀ n, answers s u n = requests u n)
      ↔ ∀ n, (u (n + 1)).in_valid = true → Held (u n) (u (n + 1))) := by
  refine ⟨?_, ?_, ?_⟩
  · intro n
    exact demod_valid_latency (n + 1) (fun j _ => by
      rw [show n + 1 + j = n + j + 1 by omega]
      exact hu (n + j))
  · -- the two lists agree before and after cycle `n + 1`, so they agree on its one answer
    intro h n hv
    have hstep := h (n + 1)
    rw [answers_succ hmult hsqrt hu, requests_succ, h n, hv, if_pos rfl, if_pos rfl] at hstep
    rw [held_iff]
    exact List.singleton_inj.mp (List.append_cancel_left hstep)
  · intro h n
    induction n with
    | zero => rfl
    | succ n ih =>
        rw [answers_succ hmult hsqrt hu, requests_succ, ih]
        cases hv : (u (n + 1)).in_valid with
        | true => rw [(held_iff _ _).mp (h n hv)]
        | false => rfl

end Stream

/-! ### A valid input that is not held -/

/-- `3 + 4 i` for one clock only, valid on that clock. -/
def glimpse (n : ℕ) : AmDemodIn 16 where
  clock_sreset := false
  in_valid := n == 1
  i_in := if n = 1 then 3 else 0
  q_in := if n = 1 then 4 else 0
  dontcare := 0

/-- The demodulator with pipelines as vendor blocks, all registers cleared. -/
def cleared : AmDemod (pipeline 1 (signedProduct 16)) (pipeline 7 (floorSqrt 16)) where
  sqrt _ := 0
  i_square _ := 0
  q_square _ := 0
  sum := 0
  demod_valid_pipe := 0
  demod_valid := false

/-- The one answer to the valid input `3 + 4 i` is 0, not 5. -/
theorem am_demod_misses_glimpse :
    (pipeline 1 (signedProduct 16)).HasLatency 2 (signedProduct 16) ∧
    (pipeline 7 (floorSqrt 16)).HasLatency 8 (floorSqrt 16) ∧
    (∀ n, (glimpse (n + 1)).clock_sreset = false) ∧
    answers cleared glimpse 1 = [0] ∧ requests glimpse 1 = [5] ∧
    ¬ ∀ n, answers cleared glimpse n = requests glimpse n := by
  have hzero : magnitude (0 : BitVec 16) 0 = 0 := by
    rw [magnitude, Nat.sqrt_eq_zero]
    rfl
  have hfive : magnitude (3 : BitVec 16) 4 = 5 := by
    rw [magnitude, show power (3 : BitVec 16) 4 = 5 * 5 from rfl, Nat.sqrt_eq]
  have ha : answers cleared glimpse 1 = [0] := by
    rw [answers_succ (pipeline_hasLatency 1 _) (pipeline_hasLatency 7 _) (fun _ => rfl)]
    show [] ++ [magnitude (0 : BitVec 16) 0] = [0]
    rw [hzero]
    rfl
  have hr : requests glimpse 1 = [5] := by
    rw [requests_succ]
    show [] ++ [magnitude (3 : BitVec 16) 4] = [5]
    rw [hfive]
    rfl
  refine ⟨pipeline_hasLatency 1 _, pipeline_hasLatency 7 _, fun _ => rfl, ha, hr, ?_⟩
  intro h
  have h1 := h 1
  rw [ha, hr] at h1
  cases h1

/-- A stream that holds its inputs is answered right. -/
theorem am_demod_answers_held :
    (∀ n, (run step cleared (fun _ => glimpse 1) (n + 11)).demod_valid = true) ∧
    ((∀ n, answers cleared (fun _ => glimpse 1) n = requests (fun _ => glimpse 1) n)
      ↔ ∀ _ : ℕ, true = true → Held (glimpse 1) (glimpse 1)) :=
  am_demod_answers_iff (pipeline_hasLatency 1 _) (pipeline_hasLatency 7 _) (fun _ => rfl)

end AmDemod

end OneBitSDR
