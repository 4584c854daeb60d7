import OneBitSDR.Lattice.NCO
import OneBitSDR.Signal.Angle
import OneBitSDR.Signal.Rotation

set_option autoImplicit false

/-! # `SinCos.v`: the sine and cosine table of the Lattice receiver

The netlist registers the angle, reads a quarter of a wave for the sine and one for the cosine from
banks of look-up blocks, with the address negated in the odd quadrants, and negates the words where
the wave is negative. The peak of the sine is not in the bank and is put in at the output. The table
is the sine and the cosine with the amplitude 2048, rounded to the nearest integer.

All of this takes three edges, but for the sign of the peak: it is taken from the register of the
angle itself and not from the copy of it that goes along with the word, and so it is the sign of
the angle that comes one clock later.
-/

namespace OneBitSDR

open Clocked Signal Real

/-! ## The banks -/

/-- `triglut_1_0_13` to `triglut_1_0_25`, for the bits of the sine. -/
def sineBank : List (BitVec 64) :=
  [ 0x894A657E52789278, 0xF6E25BBA73027CAA, 0xD0A33D7CCC5600CC, 0xE59C54FF6ACE00F0,
    0xF92ACC00736B55AA, 0xFE3369552926CC66, 0xFFC38E664DB496B4, 0xFFFC0F878E38E738,
    0xFFFFF007F03F07C0, 0xFFFFFFF8003FF800, 0xFFFFFFFFFFC00000, 0x0000000000000000,
    0x0000000000000000 ]

/-- `triglut_1_0_0` to `triglut_1_0_12`, for the bits of the cosine. -/
def cosineBank : List (BitVec 64) :=
  [ 0x3C923C94FD4CA522, 0xAA7C819CBBB48EDE, 0x6600D4667D798A16, 0x1E00E6ADFE54734E,
    0xAB55AD9C0066A93E, 0xCC66C929552D98FE, 0x5AD25B64CCE387FE, 0x39CE38E3C3E07FFE,
    0x07C1F81FC01FFFFE, 0x003FF8003FFFFFFE, 0x000007FFFFFFFFFE, 0x0000000000000001,
    0x0000000000000000 ]

/-- The word in a bank of `ROM64X1A` blocks, bit 0 in the first one. -/
def readBank (bank : List (BitVec 64)) (address : BitVec 6) : BitVec 13 :=
  bank.foldr (fun initval word => word.shiftConcat (initval.getLsbD address.toNat)) 0

/-! ## The netlist -/

/-- The flip-flops of `SinCos`: `sine_dout` are `rom_dout` to `rom_dout_12`, and `cosine_dout` are
`rom_dout_13` to `rom_dout_25`. -/
structure SinCos where
  rom_addr0_r : BitVec 6
  mx_ctrl_r : Bool
  mx_ctrl_r_1 : Bool
  sine_dout : BitVec 13
  cosine_dout : BitVec 13
  sinromoutsel : Bool
  cosromoutsel : Bool
  out_sel : Bool
  Sine : BitVec 13
  Cosine : BitVec 13

namespace SinCos

/-- The outputs of the multiplexers `muxb_52` to `muxb_57`. -/
def address (s : SinCos) : BitVec 6 := if s.mx_ctrl_r then -s.rom_addr0_r else s.rom_addr0_r

/-- The peak of the sine, with the given sign bit. -/
def peakWord (sign : Bool) : BitVec 13 := BitVec.ofBool sign ++ 1#1 ++ 0#11

/-- One rising edge of `Clock`, with `ClkEn` high and `Reset` low. -/
def step (s : SinCos) (Theta : BitVec 8) : SinCos where
  rom_addr0_r := Theta.extractLsb' 0 6
  mx_ctrl_r := Theta.getLsbD 6
  mx_ctrl_r_1 := Theta.getLsbD 7
  sine_dout := readBank sineBank s.address
  cosine_dout := readBank cosineBank s.address
  sinromoutsel := s.mx_ctrl_r_1
  cosromoutsel := s.mx_ctrl_r ^^ s.mx_ctrl_r_1
  -- `lx_ne0` is the or of the address bits
  out_sel := s.mx_ctrl_r && s.address == 0
  Sine :=
    -- the sign comes from the first register, the rest from the second
    if s.out_sel then peakWord s.mx_ctrl_r_1
    else if s.sinromoutsel then -s.sine_dout
    else s.sine_dout
  Cosine :=
    if s.out_sel then 0
    else if s.cosromoutsel then -s.cosine_dout
    else s.cosine_dout

/-! ## What is looked up -/

/-- The angle of a peak of the sine. -/
def IsPeak (theta : BitVec 8) : Prop := theta.getLsbD 6 = true ∧ theta.extractLsb' 0 6 = 0#6

instance (theta : BitVec 8) : Decidable (IsPeak theta) := by unfold IsPeak; infer_instance

/-- The address for an angle. -/
def bankAddress (theta : BitVec 8) : BitVec 6 :=
  if theta.getLsbD 6 then -theta.extractLsb' 0 6 else theta.extractLsb' 0 6

/-- The sine with the sign of its own angle. -/
def sine (theta : BitVec 8) : BitVec 13 :=
  if IsPeak theta then peakWord (theta.getLsbD 7)
  else if theta.getLsbD 7 then -readBank sineBank (bankAddress theta)
  else readBank sineBank (bankAddress theta)

def cosine (theta : BitVec 8) : BitVec 13 :=
  if IsPeak theta then 0
  else if theta.getLsbD 6 ^^ theta.getLsbD 7 then -readBank cosineBank (bankAddress theta)
  else readBank cosineBank (bankAddress theta)

/-- The bank of the cosine is the one of the sine a quarter of a turn ahead. -/
theorem sine_add_quarterTurn : ∀ theta : BitVec 8, sine (theta + quarterTurn 8) = cosine theta := by
  decide +kernel

/-- The peak is where an odd quadrant reads address 0. -/
theorem isPeak_eq : ∀ theta : BitVec 8,
    (theta.getLsbD 6 && bankAddress theta == 0) = decide (IsPeak theta) := by
  decide +kernel

/-! ## The table -/

/-- The words of the first quarter of the wave, and its peak. -/
def quarter : List ℕ :=
  (List.range 64).map (fun k => (readBank sineBank (BitVec.ofNat 6 k)).toNat) ++ [2048]

/-- The place of an angle in the first quarter. -/
def quarterIndex (theta : BitVec 8) : ℕ :=
  if (quadrant theta).getLsbD 0 then 64 - (low theta).toNat else (low theta).toNat

theorem quarter_agrees :
    agrees (2 ^ 64) fineTurn 16 (fun v y => within (2 ^ 64) 4096 50000000000000
      (2 * v - 1) (2 * v + 1) y) (fineOrbit 0) quarter = true := by
  decide +kernel

theorem toInt_sine : ∀ theta : BitVec 8, (sine theta).toInt
    = if (quadrant theta).getLsbD 1 then -(quarter.getD (quarterIndex theta) 0 : ℤ)
      else quarter.getD (quarterIndex theta) 0 := by
  decide +kernel

/-- The words are the samples of the sine, to the nearest integer. -/
theorem quarter_bounds {k : ℕ} (hk : k ≤ 64) :
    |(quarter.getD k 0 : ℝ) - 2048 * sin (16 * k * (π / 2048))| ≤ 1 / 2 := by
  have hlen : k < quarter.length := by
    rw [show quarter.length = 65 by decide +kernel]
    omega
  have h := sin_of_agrees quarter_agrees (by norm_num) hlen (by omega)
  rw [List.getD_eq_getElem?_getD, List.getElem?_eq_getElem hlen, Option.getD_some, abs_le]
  obtain ⟨hle, hlt⟩ := h
  push_cast at hle hlt
  rw [add_zero] at hle hlt
  constructor <;> linarith

/-- The table holds the sine to the nearest integer. -/
theorem sine_near (theta : BitVec 8) :
    |((sine theta).toInt : ℝ) - 2048 * sin (angle theta)| ≤ 1 / 2 := by
  have hlow : (low theta).toNat < 64 := (low theta).isLt
  have hindex : quarterIndex theta ≤ 64 := by
    unfold quarterIndex
    split_ifs <;> omega
  have hquarter := quarter_bounds hindex
  -- the angle from the zero of the sine next to it
  have hbase : (if (quadrant theta).getLsbD 0 then π / 2 - 2 * π * ((low theta).toNat / 2 ^ 8)
      else 2 * π * ((low theta).toNat / 2 ^ 8)) = 16 * quarterIndex theta * (π / 2048) := by
    unfold quarterIndex
    split_ifs
    · rw [Nat.cast_sub hlow.le]
      push_cast
      ring
    · ring
  rw [angle_eq_quadrant (by decide), sin_quadrant, hbase, toInt_sine]
  cases (quadrant theta).getLsbD 1 with
  | false => simpa using hquarter
  | true =>
      rw [← abs_neg]
      simpa [neg_add_eq_sub] using hquarter

/-- And the cosine. -/
theorem cosine_near (theta : BitVec 8) :
    |((cosine theta).toInt : ℝ) - 2048 * cos (angle theta)| ≤ 1 / 2 := by
  have h := sine_near (theta + quarterTurn 8)
  have hsin := sin_angle_add_quarterTurn (by decide : 2 ≤ 8) theta 0
  rw [add_zero, add_zero] at hsin
  rw [sine_add_quarterTurn, hsin] at h
  exact h

theorem abs_sine_le : ∀ theta : BitVec 8, |(sine theta).toInt| ≤ 2048 := by
  decide +kernel

section Pipeline

variable (s : SinCos) (u : ℕ → BitVec 8) (n : ℕ)

theorem run_out_sel : (run step s u (n + 2)).out_sel = decide (IsPeak (u n)) :=
  isPeak_eq (u n)

/-- The cosine comes out three edges late. -/
theorem run_Cosine : (run step s u (n + 3)).Cosine = cosine (u n) := by
  have hpeak := run_out_sel s u n
  have hsel : (run step s u (n + 2)).cosromoutsel = ((u n).getLsbD 6 ^^ (u n).getLsbD 7) := rfl
  have hword : (run step s u (n + 2)).cosine_dout = readBank cosineBank (bankAddress (u n)) := rfl
  rw [run_succ, step, cosine]
  dsimp only
  simp only [hpeak, hsel, hword, decide_eq_true_eq]

/-- So does the sine, but the sign of a peak is that of the next angle. -/
theorem run_Sine : (run step s u (n + 3)).Sine
    = if IsPeak (u n) then peakWord ((u (n + 1)).getLsbD 7) else sine (u n) := by
  have hpeak := run_out_sel s u n
  have hsel : (run step s u (n + 2)).sinromoutsel = (u n).getLsbD 7 := rfl
  have hword : (run step s u (n + 2)).sine_dout = readBank sineBank (bankAddress (u n)) := rfl
  have hsign : (run step s u (n + 2)).mx_ctrl_r_1 = (u (n + 1)).getLsbD 7 := rfl
  rw [run_succ, step, sine]
  dsimp only
  simp only [hpeak, hsel, hword, hsign, decide_eq_true_eq]
  split_ifs <;> rfl

end Pipeline

/-! ## The sign of a peak -/

/-- A peak followed by an angle in the other half of the turn. -/
def PeakCrossed (theta next : BitVec 8) : Prop :=
  IsPeak theta ∧ next.getLsbD 7 ≠ theta.getLsbD 7

theorem isPeak_iff : ∀ theta : BitVec 8, IsPeak theta ↔ theta.toNat = 64 ∨ theta.toNat = 192 := by
  decide +kernel

theorem upperHalf_eq : ∀ theta : BitVec 8, theta.getLsbD 7 = decide (128 ≤ theta.toNat) := by
  decide +kernel

theorem toInt_peakWord (sign : Bool) : (peakWord sign).toInt = if sign then -2048 else 2048 := by
  cases sign <;> rfl

/-- The output is the sine exactly if no peak gets the sign of the next angle. -/
theorem run_Sine_near_iff (s : SinCos) (u : ℕ → BitVec 8) (n : ℕ) :
    |((run step s u (n + 3)).Sine.toInt : ℝ) - 2048 * sin (angle (u n))| ≤ 1 / 2
      ↔ ¬ PeakCrossed (u n) (u (n + 1)) := by
  have hnear := sine_near (u n)
  rw [run_Sine]
  by_cases hpeak : IsPeak (u n)
  · have hsine : sine (u n) = peakWord ((u n).getLsbD 7) := if_pos hpeak
    rw [hsine] at hnear
    rw [if_pos hpeak]
    by_cases hsign : (u (n + 1)).getLsbD 7 = (u n).getLsbD 7
    · rw [hsign]
      exact iff_of_true hnear (fun h => h.2 hsign)
    · refine iff_of_false ?_ (not_not_intro ⟨hpeak, hsign⟩)
      intro hother
      -- the two peaks are 4096 apart
      have hopposite : (u (n + 1)).getLsbD 7 = !(u n).getLsbD 7 := by
        exact Bool.eq_not_of_ne hsign
      have hapart := (abs_sub_le _ _ _).trans
        (add_le_add hnear ((abs_sub_comm _ _).trans_le hother))
      rw [hopposite] at hapart
      generalize (u n).getLsbD 7 = sign at hapart
      cases sign <;> norm_num [toInt_peakWord] at hapart
  · rw [if_neg hpeak]
    exact iff_of_true hnear (fun h => hpeak h.1)

end SinCos

/-! ## The local oscillator -/

/-- `ncoGen` and `SinCos1` of `top`. -/
structure LocalOscillator where
  ncoGen : NcoSig
  SinCos1 : SinCos

namespace LocalOscillator

/-- One rising edge of `osc_clk`. -/
def step (s : LocalOscillator) (phase_inc_carrGen1 : BitVec 64) : LocalOscillator where
  ncoGen := s.ncoGen.step phase_inc_carrGen1
  SinCos1 := s.SinCos1.step (s.ncoGen.phase_accum.extractLsb' 56 8)

section Run

variable (s : LocalOscillator) (u : ℕ → BitVec 64) (n : ℕ)

theorem run_ncoGen : (run step s u n).ncoGen = run NcoSig.step s.ncoGen u n :=
  run_proj LocalOscillator.ncoGen (fun _ i => i) (fun _ _ => rfl) s u n

/-- The angle looked up from edge `n`. -/
def theta : BitVec 8 := upper 8 (run step s u n).ncoGen.phase_accum

theorem run_SinCos1 :
    (run step s u n).SinCos1 = run SinCos.step s.SinCos1 (fun k => theta s u k) n :=
  run_proj LocalOscillator.SinCos1 (fun t _ => upper 8 t.ncoGen.phase_accum) (fun _ _ => rfl) s u n

/-- An increment below 63 256ths of a turn does not leave the half turn of a peak. -/
theorem not_peakCrossed (h : (u n).toNat ≤ 63 * 2 ^ 56) :
    ¬ SinCos.PeakCrossed (theta s u n) (theta s u (n + 1)) := by
  rintro ⟨hpeak, hsign⟩
  have hnow : (theta s u n).toNat = (run step s u n).ncoGen.phase_accum.toNat / 2 ^ 56 % 2 ^ 8 :=
    toNat_upper _ _
  have hnext : (theta s u (n + 1)).toNat
      = ((run step s u n).ncoGen.phase_accum.toNat + (u n).toNat) % 2 ^ 64 / 2 ^ 56 % 2 ^ 8 := by
    rw [← BitVec.toNat_add]
    exact toNat_upper _ _
  rw [SinCos.isPeak_iff] at hpeak
  rw [SinCos.upperHalf_eq, SinCos.upperHalf_eq, ne_eq, decide_eq_decide] at hsign
  have hphase := (run step s u n).ncoGen.phase_accum.isLt
  rcases hpeak with hpeak | hpeak <;> omega

/-- The angle is one step of 256 wide. -/
theorem abs_theta_sub_lt :
    |angle (theta s u n) - angle (run step s u n).ncoGen.phase_accum| < 2 * π / 256 := by
  obtain ⟨hlow, hhigh⟩ := angle_upper_bounds (t := 8) (by decide)
    (run step s u n).ncoGen.phase_accum
  have hpos : 0 < 2 * π / 256 := by positivity
  norm_num at hhigh
  rw [theta, abs_lt]
  constructor <;> linarith

/-- The accumulated phase. -/
theorem coe_angle_phase_accum :
    (angle (run step s u n).ncoGen.phase_accum : Real.Angle)
      = (angle s.ncoGen.phase_accum + ∑ k ∈ Finset.range n, angle (u k) : ℝ) := by
  rw [run_ncoGen, NcoSig.run_phase_accum]
  exact coe_angle_sum _ _ n

theorem run_Cosine_theta :
    |((run step s u (n + 3)).SinCos1.Cosine.toInt : ℝ) - 2048 * cos (angle (theta s u n))|
      ≤ 1 / 2 := by
  rw [run_SinCos1, SinCos.run_Cosine]
  exact SinCos.cosine_near _

theorem run_Sine_theta_iff :
    |((run step s u (n + 3)).SinCos1.Sine.toInt : ℝ) - 2048 * sin (angle (theta s u n))| ≤ 1 / 2
      ↔ ¬ SinCos.PeakCrossed (theta s u n) (theta s u (n + 1)) := by
  rw [run_SinCos1]
  exact SinCos.run_Sine_near_iff _ _ n

end Run

/-- The error of a rounded sample at a nearby angle. -/
theorem near_sinusoid {v x y d : ℝ} (h : |v - 2048 * x| ≤ 1 / 2) (hxy : |x - y| < d) :
    |v - 2048 * y| < 1 / 2 + 2048 * d := by
  have hsub := abs_sub_amplitude_le (by norm_num : (0 : ℝ) ≤ 2048) v x y
  linarith

section Phase

variable (s : LocalOscillator) (u : ℕ → BitVec 64) (n : ℕ) {phase : ℝ}
  (hphase : (angle (run step s u n).ncoGen.phase_accum : Real.Angle) = (phase : ℝ))

include hphase

/-- The cosine of the phase, up to the rounding and one step of the angle. -/
theorem run_Cosine_phase :
    |((run step s u (n + 3)).SinCos1.Cosine.toInt : ℝ) - 2048 * cos phase|
      < 1 / 2 + 2048 * (2 * π / 256) := by
  have hcos := (abs_cos_sub_cos_le _ _).trans_lt (abs_theta_sub_lt s u n)
  rw [← Angle.cos_coe (angle (run step s u n).ncoGen.phase_accum), hphase, Angle.cos_coe] at hcos
  exact near_sinusoid (run_Cosine_theta s u n) hcos

/-- The sine too, unless it is a peak with the sign of the other half of the turn. -/
theorem run_Sine_phase (hpeak : ¬ SinCos.PeakCrossed (theta s u n) (theta s u (n + 1))) :
    |((run step s u (n + 3)).SinCos1.Sine.toInt : ℝ) - 2048 * sin phase|
      < 1 / 2 + 2048 * (2 * π / 256) := by
  have hsin := (abs_sin_sub_sin_le _ _).trans_lt (abs_theta_sub_lt s u n)
  rw [← Angle.sin_coe (angle (run step s u n).ncoGen.phase_accum), hphase, Angle.sin_coe] at hsin
  exact near_sinusoid ((run_Sine_theta_iff s u n).mpr hpeak) hsin

end Phase

/-- **The local oscillator.** For every start and every sequence of increments, three clocks late:
the cosine is that of the angle looked up, to the nearest integer, with the amplitude 2048, and so
that of the accumulated phase up to the rounding and one step of the angle. The sine is so exactly
if the angle is not that of a peak with the next angle in the other half of the turn, to which no
increment up to 63 256ths of a turn leads. -/
theorem lattice_oscillator_sine (s : LocalOscillator) (u : ℕ → BitVec 64) (n : ℕ) :
    let phase := angle s.ncoGen.phase_accum + ∑ k ∈ Finset.range n, angle (u k)
    let crossed := SinCos.PeakCrossed (theta s u n) (theta s u (n + 1))
    let t := (run step s u (n + 3)).SinCos1
    |(t.Cosine.toInt : ℝ) - 2048 * cos (angle (theta s u n))| ≤ 1 / 2 ∧
      |(t.Cosine.toInt : ℝ) - 2048 * cos phase| < 1 / 2 + 2048 * (2 * π / 256) ∧
      (|(t.Sine.toInt : ℝ) - 2048 * sin (angle (theta s u n))| ≤ 1 / 2 ↔ ¬ crossed) ∧
      (¬ crossed → |(t.Sine.toInt : ℝ) - 2048 * sin phase| < 1 / 2 + 2048 * (2 * π / 256)) ∧
      ((u n).toNat ≤ 63 * 2 ^ 56 → ¬ crossed) := by
  intro phase crossed t
  have hphase := coe_angle_phase_accum s u n
  exact ⟨run_Cosine_theta s u n, run_Cosine_phase s u n hphase, run_Sine_theta_iff s u n,
    run_Sine_phase s u n hphase, not_peakCrossed s u n⟩

/-- The phase and the registers of the table cleared. -/
def cleared : LocalOscillator where
  ncoGen := { phase_accum := 0 }
  SinCos1 :=
    { rom_addr0_r := 0, mx_ctrl_r := false, mx_ctrl_r_1 := false, sine_dout := 0, cosine_dout := 0
      sinromoutsel := false, cosromoutsel := false, out_sel := false, Sine := 0, Cosine := 0 }

/-- A sixteenth of a turn per clock: the peak after four clocks. -/
theorem lattice_oscillator_sine_peak :
    |((run step cleared (fun _ => BitVec.ofNat 64 (2 ^ 60)) (4 + 3)).SinCos1.Sine.toInt : ℝ)
        - 2048 * sin (angle (theta cleared (fun _ => BitVec.ofNat 64 (2 ^ 60)) 4))| ≤ 1 / 2 ∧
      |((run step cleared (fun _ => BitVec.ofNat 64 (2 ^ 60)) (4 + 3)).SinCos1.Sine.toInt : ℝ)
        - 2048 * sin (angle cleared.ncoGen.phase_accum
          + ∑ _ ∈ Finset.range 4, angle (BitVec.ofNat 64 (2 ^ 60)))|
        < 1 / 2 + 2048 * (2 * π / 256) := by
  obtain ⟨-, -, hangle, hphase, hinc⟩ :=
    lattice_oscillator_sine cleared (fun _ => BitVec.ofNat 64 (2 ^ 60)) 4
  exact ⟨hangle.mpr (hinc (by decide)), hphase (hinc (by decide))⟩

/-- A quarter of a turn per clock puts the wrong sign on the peak. -/
example :
    (run step cleared (fun _ => BitVec.ofNat 64 (2 ^ 62)) (1 + 3)).SinCos1.Sine.toInt = -2048 := by
  decide +kernel

end LocalOscillator

end OneBitSDR
