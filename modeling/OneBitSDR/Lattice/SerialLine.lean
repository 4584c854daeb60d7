import OneBitSDR.Lattice.UartRx

set_option autoImplicit false

/-! # The serial line of the Lattice design

The transmitter has its own clock: a frame starts at any rational time and has a rational bit
period, both measured in clocks of `osc_clk`. The receiver samples the line once every eight
clocks. With a period between 672 and 736 clocks (84 to 92 ticks for the 87 ticks of the receiver)
every sample of a frame lies inside its bit, and the machine is idle again before the stop bit
ends, so the error does not accumulate over the frames.
-/

namespace OneBitSDR

open Clocked

/-- A byte sent as an 8N1 frame from the time `t0` on, with bit period `P`. -/
structure Frame where
  t0 : ℚ
  P : ℚ
  byte : BitVec 8
  P_ge : 672 ≤ P
  P_le : P ≤ 736

namespace Frame

variable (f : Frame)

/-- The end of the stop bit. -/
def finish : ℚ := f.t0 + 10 * f.P

/-- Bit `i` of the frame: the start bit, the data from the least significant bit on, the stop
bit. -/
def bit (i : ℕ) : Bool := if i = 0 then false else if i ≤ 8 then f.byte.getLsbD (i - 1) else true

/-- What the frame puts on the line: bit `i` from `t0 + i P` to `t0 + (i + 1) P`, and nothing
before and after, which leaves the line high. -/
def level (t : ℚ) : Bool :=
  if f.t0 ≤ t ∧ t < f.finish then f.bit ⌊(t - f.t0) / f.P⌋₊ else true

theorem P_pos : 0 < f.P := by
  have h := f.P_ge
  linarith

theorem level_bit {t : ℚ} {i : ℕ} (hi : i < 10) (hlow : f.t0 + i * f.P ≤ t)
    (hhigh : t < f.t0 + (i + 1) * f.P) : f.level t = f.bit i := by
  have hP := f.P_pos
  have hi0 : (0 : ℚ) ≤ i * f.P := by positivity
  have hi9 : (i + 1 : ℚ) * f.P ≤ 10 * f.P := by
    have : (i : ℚ) + 1 ≤ 10 := by exact_mod_cast hi
    exact mul_le_mul_of_nonneg_right this hP.le
  have hfloor : ⌊(t - f.t0) / f.P⌋₊ = i := by
    rw [Nat.floor_eq_iff (div_nonneg (by linarith) hP.le)]
    constructor
    · rw [le_div_iff₀ hP]
      linarith
    · rw [div_lt_iff₀ hP]
      linarith
  unfold level finish
  rw [if_pos ⟨by linarith, by linarith⟩, hfloor]

theorem level_before {t : ℚ} (h : t < f.t0) : f.level t = true := by
  unfold level
  rw [if_neg (fun hmem => absurd hmem.1 (not_le.mpr h))]

/-- The stop bit is as high as the idle line. -/
theorem level_after {t : ℚ} (h : f.t0 + 9 * f.P ≤ t) : f.level t = true := by
  by_cases hlt : t < f.finish
  · unfold finish at hlt
    rw [f.level_bit (i := 9) (by omega) (by push_cast; linarith) (by push_cast; linarith)]
    rfl
  · unfold level
    rw [if_neg (fun hmem => hlt hmem.2)]

end Frame

/-- The line is low where one of the frames makes it low. -/
def line (frames : List Frame) (t : ℚ) : Bool := frames.all (fun f => f.level t)

/-- Every frame ends before the next one starts. -/
def Spaced (frames : List Frame) : Prop := frames.Pairwise (fun f g => f.finish ≤ g.t0)

theorem line_before {frames : List Frame} {t : ℚ} (h : ∀ f ∈ frames, t < f.t0) :
    line frames t = true := by
  unfold line
  rw [List.all_eq_true]
  intro f hf
  exact f.level_before (h f hf)

theorem line_first {f : Frame} {frames : List Frame} (hspaced : Spaced (f :: frames)) {t : ℚ}
    (h : t < f.finish) : line (f :: frames) t = f.level t := by
  have hrest : line frames t = true := by
    apply line_before
    intro g hg
    exact lt_of_lt_of_le h (List.rel_of_pairwise_cons hspaced hg)
  unfold line at hrest ⊢
  rw [List.all_cons, hrest, Bool.and_true]

theorem line_rest {f : Frame} {frames : List Frame} {t : ℚ} (h : f.t0 + 9 * f.P ≤ t) :
    line (f :: frames) t = line frames t := by
  unfold line
  rw [List.all_cons, f.level_after h, Bool.true_and]

/-! ## Sampling -/

/-- Samples every eight clocks meet the eight clocks after `t0`, if they start before its end. -/
theorem first_sample {t0 τ : ℚ} (h : τ - 8 < t0) :
    ∃ a : ℕ, t0 ≤ τ + 8 * a ∧ τ + 8 * a < t0 + 8 ∧ ∀ k < a, τ + 8 * (k : ℚ) < t0 := by
  refine ⟨⌈(t0 - τ) / 8⌉₊, ?_, ?_, ?_⟩
  · have hle := Nat.le_ceil ((t0 - τ) / 8)
    linarith
  · -- if the samples start after `t0` already, the first of them is the one
    by_cases h0 : 0 ≤ (t0 - τ) / 8
    · have hlt := Nat.ceil_lt_add_one h0
      linarith
    · rw [Nat.ceil_eq_zero.mpr (le_of_not_ge h0)]
      push_cast
      linarith
  · intro k hk
    rw [Nat.lt_ceil] at hk
    linarith

section Samples

variable {f : Frame} {frames : List Frame} {T : ℚ}

/-- From a first sample in the eight clocks after `t0`, the sample in the middle of the start
bit is low. -/
theorem sample_start (hspaced : Spaced (f :: frames)) (h0 : f.t0 ≤ T) (h8 : T < f.t0 + 8) {k : ℕ}
    (hk : k ≤ 44) : line (f :: frames) (T + 8 * k) = false := by
  have hP := f.P_ge
  have hk' : (k : ℚ) ≤ 44 := by exact_mod_cast hk
  have hk0 : (0 : ℚ) ≤ k := by positivity
  rw [line_first hspaced (by unfold Frame.finish; linarith),
    f.level_bit (i := 0) (by omega) (by push_cast; linarith) (by push_cast; linarith)]
  rfl

/-- The sample of data bit `i`, `87 (i + 1)` ticks later, is that bit. -/
theorem sample_data (hspaced : Spaced (f :: frames)) (h0 : f.t0 ≤ T) (h8 : T < f.t0 + 8) {i : ℕ}
    (hi : i < 8) :
    line (f :: frames) (T + 8 * ((44 + 87 * (i + 1) : ℕ) : ℚ)) = f.byte.getLsbD i := by
  have hP := f.P_ge
  have hi' : (i : ℚ) + 1 ≤ 8 := by exact_mod_cast hi
  have hi0 : (0 : ℚ) ≤ i := by positivity
  -- the sample is `8 (44 + 87 (i + 1))` to 8 clocks more after `t0`, for `i + 1` at most 8 bits
  have hlow : ((i : ℚ) + 1) * f.P ≤ (i + 1) * 736 :=
    mul_le_mul_of_nonneg_left f.P_le (by linarith)
  have hhigh : ((i : ℚ) + 2) * 672 ≤ (i + 2) * f.P :=
    mul_le_mul_of_nonneg_left f.P_ge (by linarith)
  have hend : ((i : ℚ) + 2) * f.P ≤ 10 * f.P :=
    mul_le_mul_of_nonneg_right (by linarith) f.P_pos.le
  push_cast
  rw [line_first hspaced (by unfold Frame.finish; linarith),
    f.level_bit (i := i + 1) (by omega) (by push_cast; linarith) (by push_cast; linarith)]
  unfold Frame.bit
  rw [if_neg (by omega), if_pos (by omega), Nat.add_sub_cancel]

end Samples

/-! ## The machine on a sampled line -/

/-- An idle machine delivers the byte of the first frame, 829 ticks after its first sample. -/
theorem first_frame_delivers {f : Frame} {frames : List Frame} (hspaced : Spaced (f :: frames))
    {m : UartFsm} (hm : m.Idle) {τ : ℚ} {d : ℕ → Bool}
    (hd : ∀ k : ℕ, d k = line (f :: frames) (τ + 8 * k)) {a : ℕ} (h0 : f.t0 ≤ τ + 8 * a)
    (h8 : τ + 8 * a < f.t0 + 8) (hwait : ∀ k < a, τ + 8 * (k : ℚ) < f.t0) :
    Delivers (UartFsm.step 87) (UartFsm.emits 87) m d (a + 829) UartFsm.Idle [f.byte] := by
  have hP := f.P_ge
  have hidle : Delivers (UartFsm.step 87) (UartFsm.emits 87) m d a UartFsm.Idle [] := by
    apply UartFsm.idle_delivers hm
    intro k hk
    have hbefore := hwait k hk
    rw [hd, line_first hspaced (by unfold Frame.finish; linarith)]
    exact f.level_before hbefore
  refine hidle.silent_seq ?_
  intro t ht
  have hshift : ∀ k : ℕ, d (a + k) = line (f :: frames) (τ + 8 * a + 8 * k) := by
    intro k
    rw [hd]
    congr 1
    push_cast
    ring
  apply UartFsm.frame_delivers (C := 87) ht f.byte (by omega) (by omega)
  · rw [hshift]
    exact sample_start hspaced h0 h8 (by omega)
  · rw [hshift]
    exact sample_start hspaced h0 h8 (by omega)
  · intro i hi
    rw [hshift]
    exact sample_data hspaced h0 h8 hi

/-- **All frames.** An idle machine that samples the line every eight clocks, the first time
at `τ`, delivers the bytes of the frames, each one once and in order. Ten ticks before the end of
the last frame it has delivered all. -/
theorem frames_delivers {frames : List Frame} (hspaced : Spaced frames) {m : UartFsm}
    (hm : m.Idle) {τ : ℚ} (hτ : ∀ f ∈ frames, τ - 8 < f.t0) {d : ℕ → Bool}
    (hd : ∀ k : ℕ, d k = line frames (τ + 8 * k)) {n : ℕ}
    (hn : ∀ f ∈ frames, f.finish ≤ τ + 8 * n + 80) :
    Delivers (UartFsm.step 87) (UartFsm.emits 87) m d n UartFsm.Idle (frames.map Frame.byte) := by
  induction frames generalizing m τ d n with
  | nil =>
      apply UartFsm.idle_delivers hm
      intro k _
      rw [hd]
      rfl
  | cons f frames ih =>
      have hP := f.P_ge
      have hP' := f.P_le
      have hτf := hτ f (List.mem_cons_self ..)
      have hnf := hn f (List.mem_cons_self ..)
      -- the first sample of the frame
      obtain ⟨a, ha0, ha8, hwait⟩ := first_sample hτf
      unfold Frame.finish at hnf
      have hlen : a + 829 ≤ n := by
        have hcast : (a : ℚ) + 829 ≤ n := by linarith
        exact_mod_cast hcast
      rcases Nat.exists_eq_add_of_le hlen with ⟨n', rfl⟩
      have hframe := first_frame_delivers hspaced hm hd ha0 ha8 hwait
      -- the machine is idle again inside the stop bit, where the line is that of the other frames
      refine hframe.seq ?_
      intro t ht
      have hτ' : ∀ k : ℕ, τ + 8 * ((a + 829 + k : ℕ) : ℚ) = τ + 8 * a + 6632 + 8 * k := by
        intro k
        push_cast
        ring
      apply ih (List.Pairwise.of_cons hspaced) ht (τ := τ + 8 * a + 6632)
      · intro g hg
        have hfg := List.rel_of_pairwise_cons hspaced hg
        unfold Frame.finish at hfg
        linarith
      · intro k
        have hk0 : (0 : ℚ) ≤ k := by positivity
        rw [hd, hτ', line_rest (by linarith)]
      · intro g hg
        have hng := hn g (List.mem_cons_of_mem _ hg)
        rw [hτ'] at hng
        exact hng

end OneBitSDR
