import Mathlib.Tactic
import Mathlib.Data.Rat.Floor

set_option autoImplicit false

/-! # `sdr.c`: the tuner

`main` shows the tuning, writes it to the FPGA and waits for a key, in an endless loop. The
gain is wrapped explicitly and the step comes from a digit, but nothing bounds `freq`: it is an
unsigned 64-bit number that every `+` and `-` moves by the step. The exact integer tuner below
says what the keys ask for. The program follows it modulo `2 ^ 64`, so the tuning is faithful
as long as the exact frequency stays between 0 and half of `PLL_FREQ`, and no longer.
-/

namespace OneBitSDR

namespace Sdr

def PLL_FREQ : ℕ := 100000000

/-- A character as a value of `alt_getchar`. -/
def char (c : Char) : BitVec 32 := BitVec.ofNat 32 c.toNat

/-- The variables of `main`: `alt_u64 freq, freq_step` and `alt_u32 gain`. -/
structure Main where
  freq : BitVec 64
  freq_step : BitVec 64
  gain : BitVec 32

namespace Main

/-- The values before the loop. -/
def start : Main where
  freq := 1278000
  freq_step := 9
  gain := 4

/-- The part of the loop after `key = alt_getchar()`: each variable with the statements that
assign it, in their order. -/
def handleKey (s : Main) (key : BitVec 32) : Main where
  freq :=
    let freq := if key = char '+' then s.freq + s.freq_step * 1000 else s.freq
    if key = char '-' then freq - s.freq_step * 1000 else freq
  gain := if key = char 'g' then (if s.gain = 8 then 0 else s.gain + 1) else s.gain
  freq_step :=
    if char '1' ≤ key ∧ key ≤ char '9' then (key - 0x30).setWidth 64 else s.freq_step

/-- The variables after a sequence of keys. -/
def afterKeys (keys : List (BitVec 32)) : Main := keys.foldl handleKey start

end Main

/-! ## The part of the loop before the key -/

/-- The conversion of a rational to `long`, which drops the fraction. The language does not
define it for a value that does not fit. -/
def toLong (x : ℚ) : Option (BitVec 32) :=
  let t := if 0 ≤ x then ⌊x⌋ else ⌈x⌉
  if -2 ^ 31 ≤ t ∧ t < 2 ^ 31 then some (BitVec.ofInt 32 t) else none

/-- `get_phase`, with the quotient as an exact rational. The parameter is an `int`. -/
def get_phase (freq : BitVec 32) : Option (BitVec 32) :=
  toLong ((freq.toInt : ℚ) * 2 ^ 32 / (PLL_FREQ : ℚ))

/-- What one pass through the loop prints (the arguments of `print_dec`, which are `alt_64`)
and writes to the FPGA. -/
structure Pass where
  printedFreq : BitVec 64
  printedStep : BitVec 64
  printedGain : BitVec 64
  PHASE_INCREMENT : Option (BitVec 32)
  CIC_GAIN : BitVec 32

/-- The argument of `get_phase` is `freq` converted to `int`. -/
def Main.pass (s : Main) : Pass where
  printedFreq := s.freq
  printedStep := s.freq_step * 1000
  printedGain := s.gain.setWidth 64
  PHASE_INCREMENT := get_phase (s.freq.setWidth 32)
  CIC_GAIN := s.gain &&& 0xf

/-! ## Keys -/

theorem handleKey_freq (s : Main) (key : BitVec 32) :
    (s.handleKey key).freq
      = if key = char '+' then s.freq + s.freq_step * 1000
        else if key = char '-' then s.freq - s.freq_step * 1000
        else s.freq := by
  unfold Main.handleKey
  dsimp only
  by_cases hp : key = char '+'
  · have hm : ¬ key = char '-' := by
      rw [hp]
      decide
    rw [if_neg hm, if_pos hp, if_pos hp]
  · rw [if_neg hp, if_neg hp]

theorem afterKeys_append (keys : List (BitVec 32)) (key : BitVec 32) :
    Main.afterKeys (keys ++ [key]) = (Main.afterKeys keys).handleKey key := by
  unfold Main.afterKeys
  rw [List.foldl_append]
  rfl

/-! ## The gain and the step -/

theorem gain_le (keys : List (BitVec 32)) : (Main.afterKeys keys).gain.toNat ≤ 8 := by
  induction keys using List.reverseRecOn with
  | nil => decide
  | append_singleton keys key ih =>
      rw [afterKeys_append]
      unfold Main.handleKey
      dsimp only
      by_cases hg : key = char 'g'
      · rw [if_pos hg]
        by_cases h8 : (Main.afterKeys keys).gain = 8
        · rw [if_pos h8]
          decide
        · -- below 8 the increment does not wrap
          have hlt : (Main.afterKeys keys).gain.toNat ≠ 8 := by
            intro h
            exact h8 (BitVec.eq_of_toNat_eq h)
          rw [if_neg h8, BitVec.toNat_add, show (1 : BitVec 32).toNat = 1 from rfl,
            Nat.mod_eq_of_lt (by omega)]
          omega
      · rw [if_neg hg]
        exact ih

/-- The digit keys, as numbers. -/
theorem digit_iff (key : BitVec 32) :
    char '1' ≤ key ∧ key ≤ char '9' ↔ 49 ≤ key.toNat ∧ key.toNat ≤ 57 := by
  rw [BitVec.le_def, BitVec.le_def]
  rfl

theorem toNat_digit {key : BitVec 32} (h1 : 49 ≤ key.toNat) (h9 : key.toNat ≤ 57) :
    ((key - 0x30).setWidth 64).toNat = key.toNat - 48 := by
  have hsub : (key - 0x30).toNat = key.toNat - 48 := by
    rw [BitVec.toNat_sub_of_le]
    · rfl
    · rw [BitVec.le_def]
      show 48 ≤ key.toNat
      omega
  rw [BitVec.toNat_setWidth, hsub]
  omega

/-! ## The tuning the keys ask for -/

/-- The tuner over the integers. -/
structure Tuning where
  hz : ℤ
  kHzStep : ℤ

namespace Tuning

def start : Tuning where
  hz := 1278000
  kHzStep := 9

def press (t : Tuning) (key : BitVec 32) : Tuning where
  hz :=
    if key = char '+' then t.hz + 1000 * t.kHzStep
    else if key = char '-' then t.hz - 1000 * t.kHzStep
    else t.hz
  kHzStep := if 49 ≤ key.toNat ∧ key.toNat ≤ 57 then key.toNat - 48 else t.kHzStep

def asked (keys : List (BitVec 32)) : Tuning := keys.foldl press start

theorem asked_append (keys : List (BitVec 32)) (key : BitVec 32) :
    asked (keys ++ [key]) = (asked keys).press key := by
  unfold asked
  rw [List.foldl_append]
  rfl

theorem kHzStep_bounds (keys : List (BitVec 32)) :
    1 ≤ (asked keys).kHzStep ∧ (asked keys).kHzStep ≤ 9 := by
  induction keys using List.reverseRecOn with
  | nil => decide
  | append_singleton keys key ih =>
      rw [asked_append]
      unfold press
      by_cases hd : 49 ≤ key.toNat ∧ key.toNat ≤ 57
      · simp only [if_pos hd]
        omega
      · simp only [if_neg hd]
        exact ih

/-- One key moves the frequency by 9 kHz at most. -/
theorem hz_press_le (keys : List (BitVec 32)) (key : BitVec 32) :
    (asked keys).hz - 9000 ≤ (asked (keys ++ [key])).hz ∧
      (asked (keys ++ [key])).hz ≤ (asked keys).hz + 9000 := by
  obtain ⟨hlow, hhigh⟩ := kHzStep_bounds keys
  rw [asked_append]
  unfold press
  dsimp only
  split_ifs <;> omega

end Tuning

/-! ## The program follows the tuning modulo `2 ^ 64` -/

theorem freq_step_asked (keys : List (BitVec 32)) :
    ((Main.afterKeys keys).freq_step.toNat : ℤ) = (Tuning.asked keys).kHzStep := by
  induction keys using List.reverseRecOn with
  | nil => rfl
  | append_singleton keys key ih =>
      rw [afterKeys_append, Tuning.asked_append]
      unfold Main.handleKey Tuning.press
      dsimp only
      by_cases hd : 49 ≤ key.toNat ∧ key.toNat ≤ 57
      · rw [if_pos ((digit_iff key).mpr hd), if_pos hd, toNat_digit hd.1 hd.2]
        omega
      · rw [if_neg (fun h => hd ((digit_iff key).mp h)), if_neg hd]
        exact ih

/-- The step in Hz is the exact one, also as a 64-bit number. -/
theorem step_hz (keys : List (BitVec 32)) :
    (Main.afterKeys keys).freq_step * 1000
      = BitVec.ofInt 64 (1000 * (Tuning.asked keys).kHzStep) := by
  have hstep : (Main.afterKeys keys).freq_step
      = BitVec.ofInt 64 (Main.afterKeys keys).freq_step.toNat := by
    rw [BitVec.ofInt_natCast, BitVec.ofNat_toNat, BitVec.setWidth_eq]
  calc (Main.afterKeys keys).freq_step * 1000
      = BitVec.ofInt 64 (Tuning.asked keys).kHzStep * BitVec.ofInt 64 1000 := by
        rw [← freq_step_asked, ← hstep]
        rfl
    _ = BitVec.ofInt 64 (1000 * (Tuning.asked keys).kHzStep) := by
        rw [← BitVec.ofInt_mul, mul_comm]

/-- **The refinement.** The program's frequency is the exact one modulo `2 ^ 64`. -/
theorem freq_asked (keys : List (BitVec 32)) :
    (Main.afterKeys keys).freq = BitVec.ofInt 64 (Tuning.asked keys).hz := by
  induction keys using List.reverseRecOn with
  | nil => rfl
  | append_singleton keys key ih =>
      rw [afterKeys_append, handleKey_freq, Tuning.asked_append, step_hz, ih]
      unfold Tuning.press
      dsimp only
      split_ifs
      · rw [BitVec.ofInt_add]
      · rw [Int.sub_eq_add_neg, BitVec.ofInt_add, BitVec.ofInt_neg, BitVec.sub_eq_add_neg]
      · rfl

theorem toNat_freq (keys : List (BitVec 32)) :
    ((Main.afterKeys keys).freq.toNat : ℤ) = (Tuning.asked keys).hz % 2 ^ 64 := by
  rw [freq_asked, BitVec.toNat_ofInt]
  omega

/-! ## Faithful passes -/

/-- A frequency below the half of the PLL clock. -/
def Tunable (hz : ℤ) : Prop := 0 ≤ hz ∧ 2 * hz < PLL_FREQ

/-- A pass through the loop shows the tuning and writes the phase increment of the frequency
it shows. -/
structure Faithful (s : Main) : Prop where
  tunable : Tunable s.pass.printedFreq.toInt
  printed : s.pass.printedFreq.toInt = s.freq.toNat
  fitsInt : (s.freq.setWidth 32 : BitVec 32).toInt = s.freq.toNat
  gain : s.gain.toNat ≤ 8
  freq_step : 1 ≤ s.freq_step.toNat ∧ s.freq_step.toNat ≤ 9
  written : ∃ phase, s.pass.PHASE_INCREMENT = some phase ∧
    (phase.toNat : ℤ) = ⌊(s.pass.printedFreq.toInt : ℚ) * 2 ^ 32 / (PLL_FREQ : ℚ)⌋

/-- The phase increment of a tunable frequency is the floor of the exact quotient. -/
theorem get_phase_tunable {freq : BitVec 32} (h : Tunable freq.toInt) :
    ∃ phase, get_phase freq = some phase ∧
      (phase.toNat : ℤ) = ⌊(freq.toInt : ℚ) * 2 ^ 32 / (PLL_FREQ : ℚ)⌋ := by
  rcases h with ⟨h0, hlt⟩
  set x : ℚ := (freq.toInt : ℚ) * 2 ^ 32 / (PLL_FREQ : ℚ) with hx
  have h0' : (0 : ℚ) ≤ freq.toInt := by exact_mod_cast h0
  have hlt' : 2 * (freq.toInt : ℚ) < PLL_FREQ := by exact_mod_cast hlt
  have hpos : (0 : ℚ) < PLL_FREQ := by norm_num [PLL_FREQ]
  have hx0 : 0 ≤ x := by positivity
  have hxlt : x < 2 ^ 31 := by
    rw [hx, div_lt_iff₀ hpos]
    linarith
  have hfloor0 : 0 ≤ ⌊x⌋ := Int.floor_nonneg.mpr hx0
  have hfloorlt : ⌊x⌋ < 2 ^ 31 := by
    rw [Int.floor_lt]
    exact_mod_cast hxlt
  refine ⟨BitVec.ofInt 32 ⌊x⌋, ?_, ?_⟩
  · unfold get_phase toLong
    simp only [← hx, if_pos hx0]
    rw [if_pos ⟨by omega, hfloorlt⟩]
  · rw [BitVec.toNat_ofInt]
    omega

/-- A pass is faithful when the frequency variable is in range. -/
theorem faithful_of_lt (keys : List (BitVec 32))
    (h : 2 * (Main.afterKeys keys).freq.toNat < PLL_FREQ) : Faithful (Main.afterKeys keys) := by
  unfold PLL_FREQ at h
  have hprinted : (Main.afterKeys keys).pass.printedFreq.toInt = (Main.afterKeys keys).freq.toNat :=
    BitVec.toInt_eq_toNat_of_lt (by show 2 * (Main.afterKeys keys).freq.toNat < _; omega)
  have hnarrow : ((Main.afterKeys keys).freq.setWidth 32 : BitVec 32).toNat
      = (Main.afterKeys keys).freq.toNat := by
    rw [BitVec.toNat_setWidth, Nat.mod_eq_of_lt (by omega)]
  have hint : ((Main.afterKeys keys).freq.setWidth 32 : BitVec 32).toInt
      = (Main.afterKeys keys).freq.toNat := by
    rw [BitVec.toInt_eq_toNat_of_lt (by omega), hnarrow]
  have htunable : Tunable (Main.afterKeys keys).freq.toNat := by
    unfold Tunable PLL_FREQ
    omega
  refine ⟨?_, hprinted, hint, gain_le keys, ?_, ?_⟩
  · rw [hprinted]
    exact htunable
  · have hbounds := Tuning.kHzStep_bounds keys
    rw [← freq_step_asked] at hbounds
    omega
  · rw [← hint] at htunable
    rw [hprinted, ← hint]
    exact get_phase_tunable htunable

/-- **When the tuning is faithful.** Every pass of the loop over a key sequence is faithful if
and only if the frequency the keys ask for stays tunable. -/
theorem tuning_faithful_iff (keys : List (BitVec 32)) :
    (∀ typed, typed <+: keys → Faithful (Main.afterKeys typed))
      ↔ ∀ typed, typed <+: keys → Tunable (Tuning.asked typed).hz := by
  constructor
  · intro h typed
    -- by induction on the keys: one key cannot carry the frequency around all of `2 ^ 64`
    induction typed using List.reverseRecOn with
    | nil =>
        intro _
        unfold Tunable
        decide
    | append_singleton typed key ih =>
        intro hprefix
        have hfaithful := h _ hprefix
        have hold := ih ((List.prefix_append typed [key]).trans hprefix)
        have hmove := Tuning.hz_press_le typed key
        have hfreq := toNat_freq (typed ++ [key])
        have hprinted := hfaithful.printed
        have htunable := hfaithful.tunable
        -- the frequency is in the band modulo `2 ^ 64`, and at most 9000 away from it
        rw [hprinted, hfreq] at htunable
        unfold Tunable PLL_FREQ at *
        omega
  · intro h typed hprefix
    have htunable := h typed hprefix
    have hfreq := toNat_freq typed
    refine faithful_of_lt typed ?_
    unfold Tunable PLL_FREQ at *
    omega

/-! ### The keys that leave the band -/

/-- One `-` more than the start frequency has steps. -/
theorem tuning_unfaithful_below_zero :
    ¬ ∀ typed, typed <+: List.replicate 143 (char '-') → Faithful (Main.afterKeys typed) := by
  intro h
  have htunable := (h _ (List.prefix_refl _)).tunable
  have hprinted : (Main.afterKeys (List.replicate 143 (char '-'))).pass.printedFreq.toInt = -9000 := by
    decide +kernel
  rw [hprinted] at htunable
  exact absurd htunable.1 (by decide)

end Sdr

end OneBitSDR
