import OneBitSDR.Cyclone.AmDemod
import OneBitSDR.Cyclone.CicFilterResponse
import OneBitSDR.Cyclone.Nco

set_option autoImplicit false

/-! # `mixer.sv` and `am_receiver.sv`: the wiring of the Cyclone receiver

`am_receiver` connects the oscillator, the mixer, two CIC filters and the demodulator. Its reset
is registered once before it reaches them.
-/

namespace OneBitSDR

open Clocked Signal

/-! ## `mixer` -/

/-- The registers of `mixer`: those of its two multipliers. -/
structure Mixer {WIDTH : ℕ} (lpm_mult : LpmMult WIDTH) where
  mult_sine : lpm_mult.State
  mult_cosine : lpm_mult.State

namespace Mixer

variable {WIDTH : ℕ} {lpm_mult : LpmMult WIDTH}

/-- One rising edge of `clock`. -/
def step (s : Mixer lpm_mult) (data_in sine_in cosine_in : BitVec WIDTH) : Mixer lpm_mult where
  mult_sine := lpm_mult.step s.mult_sine (data_in, sine_in)
  mult_cosine := lpm_mult.step s.mult_cosine (data_in, cosine_in)

/-- The output port `sine_out`, `sine_prod[WIDTH-1:0]`. -/
def sine_out (s : Mixer lpm_mult) : BitVec WIDTH := (lpm_mult.out s.mult_sine).setWidth WIDTH

/-- The output port `cosine_out`, `cosine_prod[WIDTH-1:0]`. -/
def cosine_out (s : Mixer lpm_mult) : BitVec WIDTH := (lpm_mult.out s.mult_cosine).setWidth WIDTH

end Mixer

/-! ## `am_receiver` -/

/-- The parameters of `am_receiver`. -/
structure ReceiverParams where
  WIDTH : ℕ
  CIC_DECIMATION : ℕ
  CIC_STAGES : ℕ
  stages_pos : 1 ≤ CIC_STAGES
  decimation_two : 2 ≤ CIC_DECIMATION

/-- The parameters of the two CIC filters. -/
def ReceiverParams.cic (P : ReceiverParams) : CicParams where
  WIDTH := P.WIDTH
  STAGES := P.CIC_STAGES
  DDELAY := 1
  DECIMATION := P.CIC_DECIMATION
  WIDTHR := P.WIDTH
  stages_pos := P.stages_pos
  ddelay_pos := le_refl 1
  decimation_two := P.decimation_two
  widthr_le := le_refl P.WIDTH

/-- The registers of `am_receiver`, those of its modules included. -/
structure AmReceiver (P : ReceiverParams) (lpm_mult : LpmMult P.WIDTH)
    (altsqrt : AltSqrt P.WIDTH) where
  clock_sreset_reg : Bool
  nco : Nco 32 16 11
  mixer : Mixer lpm_mult
  i_cic : CicFilter P.cic
  q_cic : CicFilter P.cic
  demod : AmDemod lpm_mult altsqrt

/-- The input ports of `am_receiver`, and the values that resets leave in the data registers of
its modules. -/
structure AmReceiverIn (P : ReceiverParams) where
  clock_sreset : Bool
  phase_increment : BitVec 32
  cic_gain : BitVec 4
  data_in : BitVec P.WIDTH
  i_dontcare : CicFilter P.cic
  q_dontcare : CicFilter P.cic
  sum_dontcare : BitVec (P.WIDTH * 2 + 1)

namespace AmReceiver

variable {P : ReceiverParams} {lpm_mult : LpmMult P.WIDTH} {altsqrt : AltSqrt P.WIDTH}

/-- The ports of `i_cic`. -/
def iPorts (s : AmReceiver P lpm_mult altsqrt) (u : AmReceiverIn P) : CicIn P.cic where
  clock_sreset := s.clock_sreset_reg
  gain := u.cic_gain
  data_in_valid := true
  data_in := s.mixer.sine_out
  dontcare := u.i_dontcare

/-- The ports of `q_cic`. -/
def qPorts (s : AmReceiver P lpm_mult altsqrt) (u : AmReceiverIn P) : CicIn P.cic where
  clock_sreset := s.clock_sreset_reg
  gain := u.cic_gain
  data_in_valid := true
  data_in := s.mixer.cosine_out
  dontcare := u.q_dontcare

/-- The ports of `demod`: the valid bit of the I filter and the outputs of both. -/
def demodPorts (s : AmReceiver P lpm_mult altsqrt) (u : AmReceiverIn P) : AmDemodIn P.WIDTH where
  clock_sreset := s.clock_sreset_reg
  in_valid := s.i_cic.data_out_valid
  i_in := s.i_cic.data_out
  q_in := s.q_cic.data_out
  dontcare := u.sum_dontcare

/-- One rising edge of `clock`, with the table `quarter_wave_512.hex` in the oscillator. -/
def step (s : AmReceiver P lpm_mult altsqrt) (u : AmReceiverIn P) :
    AmReceiver P lpm_mult altsqrt where
  -- all modules but the mixer are reset by the registered copy
  clock_sreset_reg := u.clock_sreset
  nco := s.nco.step quarterWave s.clock_sreset_reg u.phase_increment
  mixer := s.mixer.step u.data_in (s.nco.sine_out P.WIDTH) (s.nco.cosine_out P.WIDTH)
  i_cic := s.i_cic.step (s.iPorts u)
  q_cic := s.q_cic.step (s.qPorts u)
  demod := s.demod.step (s.demodPorts u)

/-- The output port `demodulated_valid`. -/
def demodulated_valid (s : AmReceiver P lpm_mult altsqrt) : Bool := s.demod.demod_valid

/-- The output port `demodulated_out`. -/
def demodulated_out (s : AmReceiver P lpm_mult altsqrt) : BitVec P.WIDTH := s.demod.demod

/-! The modules run on the signals of the receiver. -/

section Modules

variable {s : AmReceiver P lpm_mult altsqrt} {u : ℕ → AmReceiverIn P}

theorem run_i_cic (n : ℕ) :
    (run step s u n).i_cic
      = run CicFilter.step s.i_cic (fun k => (run step s u k).iPorts (u k)) n :=
  run_proj AmReceiver.i_cic iPorts (fun _ _ => rfl) s u n

theorem run_q_cic (n : ℕ) :
    (run step s u n).q_cic
      = run CicFilter.step s.q_cic (fun k => (run step s u k).qPorts (u k)) n :=
  run_proj AmReceiver.q_cic qPorts (fun _ _ => rfl) s u n

theorem run_demod (n : ℕ) :
    (run step s u n).demod
      = run AmDemod.step s.demod (fun k => (run step s u k).demodPorts (u k)) n :=
  run_proj AmReceiver.demod demodPorts (fun _ _ => rfl) s u n

end Modules

end AmReceiver

end OneBitSDR
