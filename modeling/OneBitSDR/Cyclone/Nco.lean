import OneBitSDR.Clocked.Component

set_option autoImplicit false

/-! # `nco.sv` and `sine_cosine.sv`: the local oscillator of the Cyclone receiver

A phase accumulator addresses a quarter-wave table through `sine_cosine`, which folds the angle
into the first quadrant and puts the sign back two stages later. The table is a parameter of the
modules; the one of the receiver is the contents of `quarter_wave_512.hex`.
-/

namespace OneBitSDR

open Clocked

/-! ## `sine_cosine` -/

/-- The registers of `sine_cosine`; `theta_sign0` and `theta_sign1` are `theta_sign[0]` and
`theta_sign[1]`. -/
structure SineCosine (WIDTH WIDTHT : ℕ) where
  theta_reg : BitVec WIDTHT
  theta_sign0 : BitVec 2
  theta_sign1 : BitVec 2
  ram_dataa : BitVec WIDTH
  ram_datab : BitVec WIDTH
  sine_address : BitVec (WIDTHT - 2)
  cosine_address : BitVec (WIDTHT - 2)
  sine_out : BitVec WIDTH
  cosine_out : BitVec WIDTH

namespace SineCosine

variable {WIDTH WIDTHT : ℕ}

/-- One rising edge of `clock`. The table is read on every edge, reset or not. -/
def step (ram_table : BitVec (WIDTHT - 2) → BitVec WIDTH) (s : SineCosine WIDTH WIDTHT)
    (clock_sreset : Bool) (theta : BitVec WIDTHT) : SineCosine WIDTH WIDTHT :=
  if clock_sreset then
    { theta_reg := 0
      theta_sign0 := 0
      theta_sign1 := 0
      ram_dataa := ram_table s.sine_address
      ram_datab := ram_table s.cosine_address
      sine_address := 0
      cosine_address := 0
      sine_out := 0
      cosine_out := 0 }
  else
    { theta_reg := theta
      theta_sign0 := s.theta_reg.extractLsb' (WIDTHT - 2) 2
      theta_sign1 := s.theta_sign0
      ram_dataa := ram_table s.sine_address
      ram_datab := ram_table s.cosine_address
      -- in the second and the fourth quadrant the table is read backwards
      sine_address :=
        BitVec.fill (WIDTHT - 2) (s.theta_reg.getLsbD (WIDTHT - 2))
          ^^^ s.theta_reg.setWidth (WIDTHT - 2)
      cosine_address :=
        BitVec.fill (WIDTHT - 2) (!s.theta_reg.getLsbD (WIDTHT - 2))
          ^^^ s.theta_reg.setWidth (WIDTHT - 2)
      sine_out := if s.theta_sign1.getLsbD 1 then -s.ram_dataa else s.ram_dataa
      cosine_out :=
        if s.theta_sign1.getLsbD 1 ^^ s.theta_sign1.getLsbD 0 then -s.ram_datab
        else s.ram_datab }

end SineCosine

/-! ## `nco` -/

/-- The registers of `nco`, those of its `sine_cosine` included. -/
structure Nco (WIDTHA WIDTHS WIDTHT : ℕ) where
  phase_accumulator : BitVec WIDTHA
  lut : SineCosine WIDTHS WIDTHT

namespace Nco

variable {WIDTHA WIDTHS WIDTHT : ℕ}

/-- One rising edge of `clock`. -/
def step (ram_table : BitVec (WIDTHT - 2) → BitVec WIDTHS) (s : Nco WIDTHA WIDTHS WIDTHT)
    (clock_sreset : Bool) (phase_increment : BitVec WIDTHA) : Nco WIDTHA WIDTHS WIDTHT where
  phase_accumulator := if clock_sreset then 0 else s.phase_accumulator + phase_increment
  lut := s.lut.step ram_table clock_sreset
    (s.phase_accumulator.extractLsb' (WIDTHA - WIDTHT) WIDTHT)

/-- The output port `sine_out`, the upper `WIDTH` bits of the sine. -/
def sine_out (WIDTH : ℕ) (s : Nco WIDTHA WIDTHS WIDTHT) : BitVec WIDTH :=
  s.lut.sine_out.extractLsb' (WIDTHS - WIDTH) WIDTH

/-- The output port `cosine_out`, the upper `WIDTH` bits of the cosine. -/
def cosine_out (WIDTH : ℕ) (s : Nco WIDTHA WIDTHS WIDTHT) : BitVec WIDTH :=
  s.lut.cosine_out.extractLsb' (WIDTHS - WIDTH) WIDTH

end Nco

/-! ## The table -/

/-- The contents of `quarter_wave_512.hex`. -/
def quarter_wave_512 : List ℕ :=
  [ 0x0032, 0x0096, 0x00fb, 0x015f, 0x01c4, 0x0228, 0x028d, 0x02f1,
    0x0356, 0x03ba, 0x041f, 0x0483, 0x04e8, 0x054c, 0x05b1, 0x0615,
    0x067a, 0x06de, 0x0742, 0x07a7, 0x080b, 0x086f, 0x08d4, 0x0938,
    0x099c, 0x0a00, 0x0a65, 0x0ac9, 0x0b2d, 0x0b91, 0x0bf5, 0x0c59,
    0x0cbd, 0x0d21, 0x0d85, 0x0de9, 0x0e4d, 0x0eb1, 0x0f15, 0x0f79,
    0x0fdc, 0x1040, 0x10a4, 0x1107, 0x116b, 0x11cf, 0x1232, 0x1296,
    0x12f9, 0x135d, 0x13c0, 0x1423, 0x1486, 0x14ea, 0x154d, 0x15b0,
    0x1613, 0x1676, 0x16d9, 0x173c, 0x179f, 0x1801, 0x1864, 0x18c7,
    0x1929, 0x198c, 0x19ee, 0x1a51, 0x1ab3, 0x1b15, 0x1b78, 0x1bda,
    0x1c3c, 0x1c9e, 0x1d00, 0x1d62, 0x1dc3, 0x1e25, 0x1e87, 0x1ee8,
    0x1f4a, 0x1fab, 0x200d, 0x206e, 0x20cf, 0x2130, 0x2191, 0x21f2,
    0x2253, 0x22b4, 0x2315, 0x2375, 0x23d6, 0x2436, 0x2497, 0x24f7,
    0x2557, 0x25b7, 0x2617, 0x2677, 0x26d7, 0x2737, 0x2797, 0x27f6,
    0x2856, 0x28b5, 0x2914, 0x2973, 0x29d2, 0x2a31, 0x2a90, 0x2aef,
    0x2b4e, 0x2bac, 0x2c0b, 0x2c69, 0x2cc7, 0x2d25, 0x2d83, 0x2de1,
    0x2e3f, 0x2e9d, 0x2efa, 0x2f58, 0x2fb5, 0x3012, 0x306f, 0x30cc,
    0x3129, 0x3186, 0x31e3, 0x323f, 0x329c, 0x32f8, 0x3354, 0x33b0,
    0x340c, 0x3468, 0x34c3, 0x351f, 0x357a, 0x35d6, 0x3631, 0x368c,
    0x36e7, 0x3741, 0x379c, 0x37f6, 0x3851, 0x38ab, 0x3905, 0x395f,
    0x39b9, 0x3a12, 0x3a6c, 0x3ac5, 0x3b1f, 0x3b78, 0x3bd1, 0x3c29,
    0x3c82, 0x3cdb, 0x3d33, 0x3d8b, 0x3de3, 0x3e3b, 0x3e93, 0x3eeb,
    0x3f42, 0x3f99, 0x3ff0, 0x4047, 0x409e, 0x40f5, 0x414c, 0x41a2,
    0x41f8, 0x424e, 0x42a4, 0x42fa, 0x4350, 0x43a5, 0x43fa, 0x444f,
    0x44a4, 0x44f9, 0x454e, 0x45a2, 0x45f6, 0x464a, 0x469e, 0x46f2,
    0x4746, 0x4799, 0x47ec, 0x483f, 0x4892, 0x48e5, 0x4938, 0x498a,
    0x49dc, 0x4a2e, 0x4a80, 0x4ad2, 0x4b23, 0x4b74, 0x4bc5, 0x4c16,
    0x4c67, 0x4cb8, 0x4d08, 0x4d58, 0x4da8, 0x4df8, 0x4e48, 0x4e97,
    0x4ee6, 0x4f35, 0x4f84, 0x4fd3, 0x5021, 0x5070, 0x50be, 0x510c,
    0x5159, 0x51a7, 0x51f4, 0x5241, 0x528e, 0x52db, 0x5328, 0x5374,
    0x53c0, 0x540c, 0x5458, 0x54a3, 0x54ef, 0x553a, 0x5585, 0x55cf,
    0x561a, 0x5664, 0x56ae, 0x56f8, 0x5742, 0x578b, 0x57d4, 0x581d,
    0x5866, 0x58af, 0x58f7, 0x593f, 0x5987, 0x59cf, 0x5a16, 0x5a5e,
    0x5aa5, 0x5aec, 0x5b32, 0x5b79, 0x5bbf, 0x5c05, 0x5c4b, 0x5c90,
    0x5cd6, 0x5d1b, 0x5d5f, 0x5da4, 0x5de9, 0x5e2d, 0x5e71, 0x5eb4,
    0x5ef8, 0x5f3b, 0x5f7e, 0x5fc1, 0x6004, 0x6046, 0x6088, 0x60ca,
    0x610c, 0x614d, 0x618e, 0x61cf, 0x6210, 0x6251, 0x6291, 0x62d1,
    0x6311, 0x6350, 0x638f, 0x63ce, 0x640d, 0x644c, 0x648a, 0x64c8,
    0x6506, 0x6544, 0x6581, 0x65be, 0x65fb, 0x6638, 0x6674, 0x66b0,
    0x66ec, 0x6728, 0x6763, 0x679e, 0x67d9, 0x6814, 0x684e, 0x6888,
    0x68c2, 0x68fc, 0x6935, 0x696e, 0x69a7, 0x69e0, 0x6a18, 0x6a50,
    0x6a88, 0x6ac0, 0x6af7, 0x6b2e, 0x6b65, 0x6b9c, 0x6bd2, 0x6c08,
    0x6c3e, 0x6c73, 0x6ca8, 0x6cdd, 0x6d12, 0x6d47, 0x6d7b, 0x6daf,
    0x6de3, 0x6e16, 0x6e49, 0x6e7c, 0x6eaf, 0x6ee1, 0x6f13, 0x6f45,
    0x6f76, 0x6fa8, 0x6fd9, 0x7009, 0x703a, 0x706a, 0x709a, 0x70ca,
    0x70f9, 0x7128, 0x7157, 0x7186, 0x71b4, 0x71e2, 0x7210, 0x723d,
    0x726a, 0x7297, 0x72c4, 0x72f0, 0x731c, 0x7348, 0x7374, 0x739f,
    0x73ca, 0x73f5, 0x741f, 0x7449, 0x7473, 0x749d, 0x74c6, 0x74ef,
    0x7518, 0x7540, 0x7568, 0x7590, 0x75b8, 0x75df, 0x7606, 0x762d,
    0x7653, 0x767a, 0x76a0, 0x76c5, 0x76ea, 0x7710, 0x7734, 0x7759,
    0x777d, 0x77a1, 0x77c4, 0x77e8, 0x780b, 0x782e, 0x7850, 0x7872,
    0x7894, 0x78b6, 0x78d7, 0x78f8, 0x7919, 0x7939, 0x7959, 0x7979,
    0x7998, 0x79b8, 0x79d7, 0x79f5, 0x7a14, 0x7a32, 0x7a4f, 0x7a6d,
    0x7a8a, 0x7aa7, 0x7ac4, 0x7ae0, 0x7afc, 0x7b18, 0x7b33, 0x7b4e,
    0x7b69, 0x7b83, 0x7b9e, 0x7bb8, 0x7bd1, 0x7beb, 0x7c04, 0x7c1c,
    0x7c35, 0x7c4d, 0x7c65, 0x7c7c, 0x7c93, 0x7caa, 0x7cc1, 0x7cd7,
    0x7ced, 0x7d03, 0x7d18, 0x7d2e, 0x7d42, 0x7d57, 0x7d6b, 0x7d7f,
    0x7d93, 0x7da6, 0x7db9, 0x7dcc, 0x7dde, 0x7df0, 0x7e02, 0x7e13,
    0x7e25, 0x7e36, 0x7e46, 0x7e56, 0x7e66, 0x7e76, 0x7e85, 0x7e94,
    0x7ea3, 0x7eb2, 0x7ec0, 0x7ece, 0x7edb, 0x7ee8, 0x7ef5, 0x7f02,
    0x7f0e, 0x7f1a, 0x7f26, 0x7f31, 0x7f3c, 0x7f47, 0x7f52, 0x7f5c,
    0x7f66, 0x7f6f, 0x7f78, 0x7f81, 0x7f8a, 0x7f92, 0x7f9a, 0x7fa2,
    0x7fa9, 0x7fb0, 0x7fb7, 0x7fbe, 0x7fc4, 0x7fca, 0x7fcf, 0x7fd5,
    0x7fd9, 0x7fde, 0x7fe2, 0x7fe6, 0x7fea, 0x7fee, 0x7ff1, 0x7ff3,
    0x7ff6, 0x7ff8, 0x7ffa, 0x7ffb, 0x7ffd, 0x7ffe, 0x7ffe, 0x7ffe ]

/-- `ram_table` after `$readmemh("quarter_wave_512.hex", ram_table)`. -/
def quarterWave (address : BitVec 9) : BitVec 16 :=
  BitVec.ofNat 16 (quarter_wave_512.getD address.toNat 0)

theorem quarter_wave_512_le : ∀ x ∈ quarter_wave_512, x ≤ 0x7fff := by
  decide +kernel

/-- The table holds samples that are not negative. -/
theorem quarterWave_toNat_le (address : BitVec 9) : (quarterWave address).toNat ≤ 0x7fff := by
  have h : quarter_wave_512.getD address.toNat 0 ≤ 0x7fff := by
    rw [List.getD_eq_getElem?_getD]
    cases hx : quarter_wave_512[address.toNat]? with
    | none => simp
    | some x => exact quarter_wave_512_le x (List.mem_of_getElem? hx)
  rw [quarterWave, BitVec.toNat_ofNat]
  exact (Nat.mod_le _ _).trans h

/-! ## The oscillator never reaches the most negative sample -/

/-- A 16-bit sample that can be negated without overflow. -/
def Negatable (b : BitVec 16) : Prop := -0x7fff ≤ b.toInt

theorem negatable_zero : Negatable 0 := by unfold Negatable; decide

theorem negatable_quarterWave (address : BitVec 9) : Negatable (quarterWave address) := by
  have h := quarterWave_toNat_le address
  unfold Negatable
  rw [BitVec.toInt_eq_toNat_cond]
  split <;> omega

theorem negatable_neg_quarterWave (address : BitVec 9) : Negatable (-quarterWave address) := by
  have h := quarterWave_toNat_le address
  unfold Negatable
  rw [BitVec.toInt_eq_toNat_cond, BitVec.toNat_neg]
  split <;> omega

/-- What holds of the look-up with the receiver's table: the words read from it are table
entries, and the outputs can be negated. -/
structure SineCosine.FromTable {WIDTHT : ℕ} (ram_table : BitVec (WIDTHT - 2) → BitVec 16)
    (s : SineCosine 16 WIDTHT) : Prop where
  dataa : ∃ address, s.ram_dataa = ram_table address
  datab : ∃ address, s.ram_datab = ram_table address
  sine : Negatable s.sine_out
  cosine : Negatable s.cosine_out

/-- A reset establishes it. -/
theorem SineCosine.fromTable_reset (s : SineCosine 16 11) (theta : BitVec 11) :
    (s.step quarterWave true theta).FromTable quarterWave :=
  ⟨⟨s.sine_address, rfl⟩, ⟨s.cosine_address, rfl⟩, negatable_zero, negatable_zero⟩

/-- Every edge keeps it. -/
theorem SineCosine.fromTable_step {s : SineCosine 16 11} (h : s.FromTable quarterWave)
    (clock_sreset : Bool) (theta : BitVec 11) :
    (s.step quarterWave clock_sreset theta).FromTable quarterWave := by
  cases clock_sreset with
  | true => exact fromTable_reset s theta
  | false =>
      rcases h.dataa with ⟨a, ha⟩
      rcases h.datab with ⟨b, hb⟩
      refine ⟨⟨s.sine_address, rfl⟩, ⟨s.cosine_address, rfl⟩, ?_, ?_⟩
      · show Negatable (if s.theta_sign1.getLsbD 1 then -s.ram_dataa else s.ram_dataa)
        rw [ha]
        split
        · exact negatable_neg_quarterWave a
        · exact negatable_quarterWave a
      · show Negatable (if s.theta_sign1.getLsbD 1 ^^ s.theta_sign1.getLsbD 0
          then -s.ram_datab else s.ram_datab)
        rw [hb]
        split
        · exact negatable_neg_quarterWave b
        · exact negatable_quarterWave b

end OneBitSDR
