import OneBitSDR.Cyclone.Nco
import OneBitSDR.Signal.Phase

set_option autoImplicit false

/-! # What the local oscillator looks up

`SineCosine.lookup` is the function that the quarter-wave table stands for: the quadrant of the
angle decides the direction in which the table is read and the sign. The pipeline of `sine_cosine`
computes it for the angle and for the angle a quarter of a turn ahead, four edges late, and `nco`
does so for its accumulated phase.
-/

namespace OneBitSDR

open Clocked Signal

/-! ## `sine_cosine` -/

namespace SineCosine

variable {WIDTH WIDTHT : ℕ}

/-- The wave that the quarter-wave table stands for. -/
def lookup (ram_table : BitVec (WIDTHT - 2) → BitVec WIDTH) (theta : BitVec WIDTHT) :
    BitVec WIDTH :=
  match quadrant theta with
  | 0b00#2 => ram_table (low theta)
  | 0b01#2 => ram_table (~~~low theta)
  | 0b10#2 => -ram_table (low theta)
  | 0b11#2 => -ram_table (~~~low theta)

/-- The ports of `sine_cosine`. -/
structure Ports (WIDTHT : ℕ) where
  clock_sreset : Bool
  theta : BitVec WIDTHT

/-- One rising edge with the ports as one value. -/
def clocked (ram_table : BitVec (WIDTHT - 2) → BitVec WIDTH) (s : SineCosine WIDTH WIDTHT)
    (u : Ports WIDTHT) : SineCosine WIDTH WIDTHT :=
  s.step ram_table u.clock_sreset u.theta

/-- The address of the sine. -/
def sineAddress (theta : BitVec WIDTHT) : BitVec (WIDTHT - 2) :=
  BitVec.fill (WIDTHT - 2) ((quadrant theta).getLsbD 0) ^^^ low theta

/-- The address of the cosine. -/
def cosineAddress (theta : BitVec WIDTHT) : BitVec (WIDTHT - 2) :=
  BitVec.fill (WIDTHT - 2) (!(quadrant theta).getLsbD 0) ^^^ low theta

/-- The sine by address and sign. -/
theorem lookup_eq (ram_table : BitVec (WIDTHT - 2) → BitVec WIDTH) (theta : BitVec WIDTHT) :
    lookup ram_table theta
      = if (quadrant theta).getLsbD 1 then -ram_table (sineAddress theta)
        else ram_table (sineAddress theta) := by
  unfold lookup sineAddress
  rcases quadrant_cases (quadrant theta) with h | h | h | h <;> simp [h]

/-- The cosine by address and sign is the wave a quarter of a turn ahead. -/
theorem lookup_add_quarterTurn (hT : 2 ≤ WIDTHT) (ram_table : BitVec (WIDTHT - 2) → BitVec WIDTH)
    (theta : BitVec WIDTHT) :
    lookup ram_table (theta + quarterTurn WIDTHT)
      = if (quadrant theta).getLsbD 1 ^^ (quadrant theta).getLsbD 0
        then -ram_table (cosineAddress theta) else ram_table (cosineAddress theta) := by
  unfold lookup cosineAddress
  rw [quadrant_add_quarterTurn hT, low_add_quarterTurn hT]
  rcases quadrant_cases (quadrant theta) with h | h | h | h <;> simp [h]

/-- Half a turn negates the wave. -/
theorem lookup_add_halfTurn (hT : 2 ≤ WIDTHT) (ram_table : BitVec (WIDTHT - 2) → BitVec WIDTH)
    (theta : BitVec WIDTHT) :
    lookup ram_table (theta + halfTurn WIDTHT) = -lookup ram_table theta := by
  rw [← quarterTurn_add_quarterTurn hT, ← BitVec.add_assoc]
  unfold lookup
  rw [quadrant_add_quarterTurn hT, quadrant_add_quarterTurn hT, low_add_quarterTurn hT,
    low_add_quarterTurn hT]
  rcases quadrant_cases (quadrant theta) with h | h | h | h <;> simp [h]

/-! One edge outside reset. -/

section Step

variable {ram_table : BitVec (WIDTHT - 2) → BitVec WIDTH} {s : SineCosine WIDTH WIDTHT}
  {u : Ports WIDTHT}

theorem clocked_theta_reg (h : u.clock_sreset = false) :
    (s.clocked ram_table u).theta_reg = u.theta := by
  simp [clocked, step, h]

theorem clocked_theta_sign0 (h : u.clock_sreset = false) :
    (s.clocked ram_table u).theta_sign0 = quadrant s.theta_reg := by
  simp [clocked, step, h, quadrant]

theorem clocked_theta_sign1 (h : u.clock_sreset = false) :
    (s.clocked ram_table u).theta_sign1 = s.theta_sign0 := by
  simp [clocked, step, h]

theorem clocked_sine_address (h : u.clock_sreset = false) :
    (s.clocked ram_table u).sine_address = sineAddress s.theta_reg := by
  simp [clocked, step, h, sineAddress, quadrant, low]

theorem clocked_cosine_address (h : u.clock_sreset = false) :
    (s.clocked ram_table u).cosine_address = cosineAddress s.theta_reg := by
  simp [clocked, step, h, cosineAddress, quadrant, low]

theorem clocked_sine_out (h : u.clock_sreset = false) :
    (s.clocked ram_table u).sine_out
      = if s.theta_sign1.getLsbD 1 then -s.ram_dataa else s.ram_dataa := by
  simp [clocked, step, h]

theorem clocked_cosine_out (h : u.clock_sreset = false) :
    (s.clocked ram_table u).cosine_out
      = if s.theta_sign1.getLsbD 1 ^^ s.theta_sign1.getLsbD 0 then -s.ram_datab
        else s.ram_datab := by
  simp [clocked, step, h]

end Step

/-- The table is read on every edge, of a reset or not. -/
theorem clocked_ram (ram_table : BitVec (WIDTHT - 2) → BitVec WIDTH) (s : SineCosine WIDTH WIDTHT)
    (u : Ports WIDTHT) :
    (s.clocked ram_table u).ram_dataa = ram_table s.sine_address ∧
      (s.clocked ram_table u).ram_datab = ram_table s.cosine_address := by
  unfold clocked step
  split <;> exact ⟨rfl, rfl⟩

/-- **The pipeline of the look-up.** The outputs are the wave at the angle of four edges ago and
a quarter of a turn ahead of it. -/
theorem run_lookup (hT : 2 ≤ WIDTHT) (ram_table : BitVec (WIDTHT - 2) → BitVec WIDTH)
    (s : SineCosine WIDTH WIDTHT) (u : ℕ → Ports WIDTHT) (n : ℕ)
    (hr : ∀ j < 4, (u (n + j)).clock_sreset = false) :
    (run (clocked ram_table) s u (n + 4)).sine_out = lookup ram_table (u n).theta ∧
      (run (clocked ram_table) s u (n + 4)).cosine_out
        = lookup ram_table ((u n).theta + quarterTurn WIDTHT) := by
  have htheta : (run (clocked ram_table) s u (n + 1)).theta_reg = (u n).theta :=
    clocked_theta_reg (hr 0 (by omega))
  -- address and quadrant are registered together and stay two edges apart from the sign
  have hsign0 : (run (clocked ram_table) s u (n + 2)).theta_sign0 = quadrant (u n).theta := by
    rw [run_succ, clocked_theta_sign0 (hr 1 (by omega)), htheta]
  have hsine : (run (clocked ram_table) s u (n + 2)).sine_address = sineAddress (u n).theta := by
    rw [run_succ, clocked_sine_address (hr 1 (by omega)), htheta]
  have hcosine : (run (clocked ram_table) s u (n + 2)).cosine_address
      = cosineAddress (u n).theta := by
    rw [run_succ, clocked_cosine_address (hr 1 (by omega)), htheta]
  have hsign1 : (run (clocked ram_table) s u (n + 3)).theta_sign1 = quadrant (u n).theta := by
    rw [run_succ, clocked_theta_sign1 (hr 2 (by omega)), hsign0]
  rcases clocked_ram ram_table (run (clocked ram_table) s u (n + 2)) (u (n + 2)) with ⟨ha, hb⟩
  rw [hsine] at ha
  rw [hcosine] at hb
  constructor
  · rw [run_succ, clocked_sine_out (hr 3 (by omega)), hsign1, run_succ, ha, lookup_eq]
  · rw [run_succ, clocked_cosine_out (hr 3 (by omega)), hsign1, run_succ, hb,
      lookup_add_quarterTurn hT]

end SineCosine

/-! ## `nco` -/

namespace Nco

variable {WIDTHA WIDTHS WIDTHT : ℕ}

/-- The ports of `nco`. -/
structure Ports (WIDTHA : ℕ) where
  clock_sreset : Bool
  phase_increment : BitVec WIDTHA

/-- One rising edge with the ports as one value. -/
def clocked (ram_table : BitVec (WIDTHT - 2) → BitVec WIDTHS) (s : Nco WIDTHA WIDTHS WIDTHT)
    (u : Ports WIDTHA) : Nco WIDTHA WIDTHS WIDTHT :=
  s.step ram_table u.clock_sreset u.phase_increment

/-- The words looked up in the oscillator belong to the phase of four edges ago. -/
theorem run_lut (hT : 2 ≤ WIDTHT) (ram_table : BitVec (WIDTHT - 2) → BitVec WIDTHS)
    (s : Nco WIDTHA WIDTHS WIDTHT) (u : ℕ → Ports WIDTHA) (n : ℕ)
    (hr : ∀ j < 4, (u (n + j)).clock_sreset = false) :
    (run (clocked ram_table) s u (n + 4)).lut.sine_out
        = SineCosine.lookup ram_table
          (upper WIDTHT (run (clocked ram_table) s u n).phase_accumulator) ∧
      (run (clocked ram_table) s u (n + 4)).lut.cosine_out
        = SineCosine.lookup ram_table
          (upper WIDTHT (run (clocked ram_table) s u n).phase_accumulator
            + quarterTurn WIDTHT) := by
  have hlut : (run (clocked ram_table) s u (n + 4)).lut
      = run (SineCosine.clocked ram_table) s.lut
        (fun k => ⟨(u k).clock_sreset,
          upper WIDTHT (run (clocked ram_table) s u k).phase_accumulator⟩) (n + 4) :=
    run_proj Nco.lut
      (fun t (v : Ports WIDTHA) =>
        (⟨v.clock_sreset, upper WIDTHT t.phase_accumulator⟩ : SineCosine.Ports WIDTHT))
      (fun _ _ => rfl) s u (n + 4)
  rw [hlut]
  exact SineCosine.run_lookup hT ram_table _ _ n hr

@[simp] theorem sine_out_full (s : Nco WIDTHA WIDTHS WIDTHT) :
    s.sine_out WIDTHS = s.lut.sine_out := by
  simp [sine_out]

@[simp] theorem cosine_out_full (s : Nco WIDTHA WIDTHS WIDTHT) :
    s.cosine_out WIDTHS = s.lut.cosine_out := by
  simp [cosine_out]

/-- Two runs whose phases are half a turn apart look up words of opposite sign. -/
theorem run_lut_halfTurn (hT : 2 ≤ WIDTHT) (hA : WIDTHT ≤ WIDTHA)
    (ram_table : BitVec (WIDTHT - 2) → BitVec WIDTHS) {s s' : Nco WIDTHA WIDTHS WIDTHT}
    {u u' : ℕ → Ports WIDTHA} {n n' : ℕ} (hr : ∀ j < 4, (u (n + j)).clock_sreset = false)
    (hr' : ∀ j < 4, (u' (n' + j)).clock_sreset = false)
    (hphase : (run (clocked ram_table) s' u' n').phase_accumulator
      = (run (clocked ram_table) s u n).phase_accumulator + halfTurn WIDTHA) :
    (run (clocked ram_table) s' u' (n' + 4)).lut.sine_out
        = -(run (clocked ram_table) s u (n + 4)).lut.sine_out ∧
      (run (clocked ram_table) s' u' (n' + 4)).lut.cosine_out
        = -(run (clocked ram_table) s u (n + 4)).lut.cosine_out := by
  rcases run_lut hT ram_table s u n hr with ⟨hsine, hcosine⟩
  rcases run_lut hT ram_table s' u' n' hr' with ⟨hsine', hcosine'⟩
  rw [hphase, upper_add_halfTurn (by omega) hA] at hsine' hcosine'
  rw [hsine, hsine', hcosine, hcosine', BitVec.add_assoc, BitVec.add_comm (halfTurn WIDTHT),
    ← BitVec.add_assoc]
  exact ⟨SineCosine.lookup_add_halfTurn hT ram_table _, SineCosine.lookup_add_halfTurn hT ram_table _⟩

/-- **Quadrature of the local oscillator**, for every table. `sine_cosine` looks up the wave at
the angle of four edges ago and a quarter of a turn ahead of it; the outputs of `nco` belong to
one accumulated phase; half a turn negates the two words looked up, and it negates an output
port exactly when only zeros were dropped from its word, so always at the full width. -/
theorem local_oscillator_quadrature (hT : 3 ≤ WIDTHT)
    (ram_table : BitVec (WIDTHT - 2) → BitVec WIDTHS) :
    (∀ (s : SineCosine WIDTHS WIDTHT) (u : ℕ → SineCosine.Ports WIDTHT) (n : ℕ),
      (∀ j < 4, (u (n + j)).clock_sreset = false) →
      (run (SineCosine.clocked ram_table) s u (n + 4)).sine_out
          = SineCosine.lookup ram_table (u n).theta ∧
        (run (SineCosine.clocked ram_table) s u (n + 4)).cosine_out
          = SineCosine.lookup ram_table ((u n).theta + quarterTurn WIDTHT)) ∧
    (∀ (WIDTH : ℕ) (s : Nco WIDTHA WIDTHS WIDTHT) (u : ℕ → Ports WIDTHA) (n : ℕ),
      WIDTHT ≤ WIDTHA → WIDTH ≤ WIDTHS → (∀ j < 4, (u (n + j)).clock_sreset = false) →
      ∃ theta, theta = upper WIDTHT (run (clocked ram_table) s u n).phase_accumulator ∧
        (run (clocked ram_table) s u (n + 4)).sine_out WIDTH
          = upper WIDTH (SineCosine.lookup ram_table theta) ∧
        (run (clocked ram_table) s u (n + 4)).cosine_out WIDTH
          = upper WIDTH (SineCosine.lookup ram_table (theta + quarterTurn WIDTHT))) ∧
    (∀ (s s' : Nco WIDTHA WIDTHS WIDTHT) (u u' : ℕ → Ports WIDTHA) (n n' : ℕ),
      WIDTHT ≤ WIDTHA → (∀ j < 4, (u (n + j)).clock_sreset = false) →
      (∀ j < 4, (u' (n' + j)).clock_sreset = false) →
      (run (clocked ram_table) s' u' n').phase_accumulator
        = (run (clocked ram_table) s u n).phase_accumulator + halfTurn WIDTHA →
      let t := run (clocked ram_table) s u (n + 4)
      let t' := run (clocked ram_table) s' u' (n' + 4)
      t'.lut.sine_out = -t.lut.sine_out ∧ t'.lut.cosine_out = -t.lut.cosine_out ∧
        t'.sine_out WIDTHS = -t.sine_out WIDTHS ∧ t'.cosine_out WIDTHS = -t.cosine_out WIDTHS ∧
        ∀ WIDTH, 0 < WIDTH → WIDTH ≤ WIDTHS →
          (t'.sine_out WIDTH = -t.sine_out WIDTH
            ↔ t.lut.sine_out.setWidth (WIDTHS - WIDTH) = 0) ∧
          (t'.cosine_out WIDTH = -t.cosine_out WIDTH
            ↔ t.lut.cosine_out.setWidth (WIDTHS - WIDTH) = 0)) := by
  refine ⟨?_, ?_, ?_⟩
  · intro s u n hr
    exact SineCosine.run_lookup (by omega) ram_table s u n hr
  · intro WIDTH s u n _ _ hr
    rcases run_lut (by omega) ram_table s u n hr with ⟨hsine, hcosine⟩
    exact ⟨_, rfl, congrArg (upper WIDTH) hsine, congrArg (upper WIDTH) hcosine⟩
  · intro s s' u u' n n' hA hr hr' hphase t t'
    obtain ⟨hsine, hcosine⟩ : t'.lut.sine_out = -t.lut.sine_out ∧
        t'.lut.cosine_out = -t.lut.cosine_out :=
      run_lut_halfTurn (by omega) hA ram_table hr hr' hphase
    refine ⟨hsine, hcosine, ?_, ?_, ?_⟩
    · rw [sine_out_full, sine_out_full, hsine]
    · rw [cosine_out_full, cosine_out_full, hcosine]
    · intro WIDTH hpos hle
      constructor
      · rw [← upper_neg_eq_iff hpos hle, ← hsine]
        exact Iff.rfl
      · rw [← upper_neg_eq_iff hpos hle, ← hcosine]
        exact Iff.rfl

/-- The oscillator of the receiver with a given phase and a cleared look-up. -/
def atPhase (phase : BitVec 32) : Nco 32 16 11 where
  phase_accumulator := phase
  lut :=
    { theta_reg := 0
      theta_sign0 := 0
      theta_sign1 := 0
      ram_dataa := 0
      ram_datab := 0
      sine_address := 0
      cosine_address := 0
      sine_out := 0
      cosine_out := 0 }

/-- A tuning word of zero, no reset. -/
def still (_ : ℕ) : Ports 32 := ⟨false, 0⟩

/-- With 15 of 16 bits kept, 251 is read as 125 and half a turn ahead as -126. -/
theorem half_turn_truncated :
    (run (clocked quarterWave) (atPhase 0x80400000) still 0).phase_accumulator
        = (run (clocked quarterWave) (atPhase 0x400000) still 0).phase_accumulator
          + halfTurn 32 ∧
      ((run (clocked quarterWave) (atPhase 0x400000) still 4).sine_out 15).toInt = 125 ∧
      ((run (clocked quarterWave) (atPhase 0x80400000) still 4).sine_out 15).toInt = -126 ∧
      (run (clocked quarterWave) (atPhase 0x80400000) still 4).sine_out 15
        ≠ -(run (clocked quarterWave) (atPhase 0x400000) still 4).sine_out 15 := by
  decide +kernel

/-- The angle 0 of the receiver's table: sine 50, cosine 32766, negated half a turn ahead. -/
theorem local_oscillator_quadrature_origin :
    SineCosine.lookup quarterWave (upper 11 (0 : BitVec 32)) = 50 ∧
      (run (clocked quarterWave) (atPhase 0x80000000) still 4).sine_out 16
        = -(run (clocked quarterWave) (atPhase 0) still 4).sine_out 16 := by
  have h := (local_oscillator_quadrature (by decide : 3 ≤ 11) quarterWave).2.2 (atPhase 0)
    (atPhase 0x80000000) still still 0 0 (by decide : 11 ≤ 32) (fun _ _ => rfl) (fun _ _ => rfl)
    (by decide)
  exact ⟨by decide +kernel, h.2.2.1⟩

end Nco

end OneBitSDR
