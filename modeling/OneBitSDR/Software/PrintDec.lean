import Mathlib
import OneBitSDR.Numeral.Grouped
import OneBitSDR.Software.Sdr

set_option autoImplicit false

/-! # `print_dec` of `sdr.c`

The digits of a number are stored in `char r[20]` from the right, with a comma after every third
one, and sent to the console from the left. The loop belongs to the branch of the positive
numbers: of a negative one only the sign is sent. Fifteen digits and their five commas fill the
buffer, so the sixteenth digit of a larger number is stored outside it. The numbers that a
faithful pass of the tuner shows are neither.
-/

namespace OneBitSDR

open Numeral

namespace Sdr

/-! ## The program -/

/-- An access to `r` at an index outside its bounds; what comes after it is not defined. -/
inductive Fault
  | store (i : ℤ)
  | load (i : ℤ)

/-- `char r[20]`. -/
abbrev Buffer := Fin 20 → BitVec 8

/-- `r[i] = c`. -/
def store (r : Buffer) (i : ℤ) (c : BitVec 8) : Except Fault Buffer :=
  if h : 0 ≤ i ∧ i < 20 then .ok (Function.update r ⟨i.toNat, by omega⟩ c) else .error (.store i)

/-- The value of `r[i]`. -/
def load (r : Buffer) (i : ℤ) : Except Fault (BitVec 8) :=
  if h : 0 ≤ i ∧ i < 20 then .ok (r ⟨i.toNat, by omega⟩) else .error (.load i)

/-- A character as a value of `char`. -/
def byte (c : Char) : BitVec 8 := BitVec.ofNat 8 c.toNat

/-- `0x30 + (t % 10)`, converted to `char`. -/
def digit (t : BitVec 64) : BitVec 8 := (0x30 + t % 10).setWidth 8

theorem toNat_div_ten (t : BitVec 64) : (t / 10).toNat = t.toNat / 10 := BitVec.toNat_udiv

/-- The loop `while (t > 0)`. -/
def digitLoop (t : BitVec 64) (i j : ℤ) (r : Buffer) : Except Fault (ℤ × Buffer) :=
  if ht : 0 < t then do
    let j := j + 1
    let r ← store r i (digit t)
    let i := i + 1
    if j % 3 = 0 then
      let r ← store r i (byte ',')
      digitLoop (t / 10) (i + 1) j r
    else digitLoop (t / 10) i j r
  else .ok (i, r)
termination_by t.toNat
decreasing_by
  all_goals
    rw [toNat_div_ten]
    exact Nat.div_lt_self ht (by decide)

/-- The loop `for (j = i - 1; j >= 0; j--)` with `i = n`: the characters that are sent. -/
def printLoop (r : Buffer) : ℕ → Except Fault (List Char)
  | 0 => .ok []
  | n + 1 => do
      let c ← load r n
      let rest ← printLoop r n
      .ok (Char.ofNat c.toNat :: rest)

/-- `print_dec`: the characters it sends, for the contents `r` of its buffer at the start. -/
def print_dec (r : Buffer) (x : BitVec 64) : Except Fault (List Char) :=
  if x = 0 then .ok ['0']
  else if x.slt 0 then
    -- `t` is set to `-x` and not used
    .ok ['-']
  else do
    let (i, r) ← digitLoop x 0 0 r
    let c ← load r (i - 1)
    let i := if c = byte ',' then i - 1 else i
    printLoop r i.toNat

/-! ## The buffer -/

/-- The first cells of the buffer. -/
structure Filled (r : Buffer) (l : List (BitVec 8)) : Prop where
  size : l.length ≤ 20
  cell : ∀ p : Fin 20, p.val < l.length → l[p.val]? = some (r p)

theorem filled_nil (r : Buffer) : Filled r [] :=
  ⟨by simp, fun p hp => absurd hp (Nat.not_lt_zero _)⟩

theorem Filled.left {r : Buffer} {l l' : List (BitVec 8)} (h : Filled r (l ++ l')) :
    Filled r l := by
  have hsize := h.size
  rw [List.length_append] at hsize
  refine ⟨by omega, ?_⟩
  intro p hp
  rw [← h.cell p (by rw [List.length_append]; omega), List.getElem?_append_left hp]

/-- A store behind the filled cells. -/
theorem Filled.store {r : Buffer} {l : List (BitVec 8)} (h : Filled r l) (hl : l.length < 20)
    (c : BitVec 8) : ∃ r', store r l.length c = .ok r' ∧ Filled r' (l ++ [c]) := by
  unfold Sdr.store
  rw [dif_pos ⟨by omega, by omega⟩]
  refine ⟨_, rfl, ?_, ?_⟩
  · rw [List.length_append, List.length_singleton]
    omega
  · intro p hp
    rw [List.length_append, List.length_singleton] at hp
    by_cases hlast : p.val = l.length
    · have hindex : p = ⟨(l.length : ℤ).toNat, by omega⟩ := Fin.ext (by simp [hlast])
      rw [hlast, List.getElem?_concat_length, hindex, Function.update_self]
    · rw [List.getElem?_append_left (by omega), h.cell p (by omega), Function.update_of_ne]
      intro hindex
      exact hlast (by simp [hindex])

theorem Filled.load {r : Buffer} {l : List (BitVec 8)} (h : Filled r l) {k : ℕ} {c : BitVec 8}
    (hc : l[k]? = some c) : load r k = .ok c := by
  have hk := (List.getElem?_eq_some_iff.mp hc).1
  have hsize := h.size
  unfold Sdr.load
  rw [dif_pos ⟨by omega, by omega⟩]
  have hcell := h.cell ⟨k, by omega⟩ hk
  rw [hc, Option.some_inj] at hcell
  rw [hcell]
  rfl

/-- The filled cells are sent from the last to the first. -/
theorem printLoop_filled {r : Buffer} {l : List (BitVec 8)} (h : Filled r l) :
    printLoop r l.length = .ok (l.map fun c => Char.ofNat c.toNat).reverse := by
  induction l using List.reverseRecOn with
  | nil => rfl
  | append_singleton l c ih =>
      have hlast : (l ++ [c])[l.length]? = some c := List.getElem?_concat_length
      rw [List.length_append, List.length_singleton, printLoop, h.load hlast, ih h.left]
      simp [bind, Except.bind]

/-! ## The digits -/

/-- A digit can be read back, and is not a comma. -/
theorem byte_digitChar (d : ℕ) (h : d < 10) :
    Char.ofNat (byte (Nat.digitChar d)).toNat = Nat.digitChar d ∧
    byte (Nat.digitChar d) ≠ byte ',' := by
  interval_cases d <;> exact ⟨rfl, by decide⟩

theorem digit_eq (t : BitVec 64) : digit t = byte (Nat.digitChar (t.toNat % 10)) := by
  have hlt : t.toNat % 10 < 10 := Nat.mod_lt _ (by decide)
  apply BitVec.eq_of_toNat_eq
  calc (digit t).toNat = (48 + t.toNat % 10) % 2 ^ 64 % 2 ^ 8 := by
        rw [digit, BitVec.toNat_setWidth, BitVec.toNat_add, BitVec.toNat_umod]
        rfl
    _ = (48 + t.toNat % 10) % 2 ^ 8 := by omega
    _ = (byte (Nat.digitChar (t.toNat % 10))).toNat := by
        rw [byte, BitVec.toNat_ofNat, Nat.toNat_digitChar_of_lt_ten hlt]

/-- Digit `k` of a number, from the right. -/
def digitOf (x k : ℕ) : BitVec 8 := byte (Nat.digitChar (x / 10 ^ k % 10))

/-- What the loop has stored after `k` digits of `x`. -/
def stored (x k : ℕ) : List (BitVec 8) := written 3 (byte ',') (digitOf x) k

theorem length_stored (x k : ℕ) : (stored x k).length = k + k / 3 := length_written k

/-- One turn of the loop, as long as its digit and the comma fit. -/
theorem digitLoop_turn {x k : ℕ} {t : BitVec 64} {r : Buffer} (ht : t.toNat = x / 10 ^ k)
    (hpos : 0 < t) (h : Filled r (stored x k)) (hfits : (stored x (k + 1)).length ≤ 20) :
    ∃ r', digitLoop t (stored x k).length k r
        = digitLoop (t / 10) (stored x (k + 1)).length (k + 1 : ℕ) r' ∧
      Filled r' (stored x (k + 1)) := by
  have hdigit : digit t = digitOf x k := by rw [digit_eq, ht, digitOf]
  have hsucc : stored x (k + 1)
      = stored x k ++ [digitOf x k] ++ if (k + 1) % 3 = 0 then [byte ','] else [] := by
    rw [List.append_assoc]
    rfl
  rw [hsucc, List.length_append, List.length_append, List.length_singleton] at hfits
  obtain ⟨r₁, hstore, hfilled⟩ := h.store (by omega) (digitOf x k)
  rw [digitLoop, dif_pos hpos, hdigit]
  dsimp only
  rw [hstore]
  dsimp only [bind, Except.bind]
  by_cases hgroup : (k + 1) % 3 = 0
  · -- the digit ends a group
    rw [if_pos hgroup] at hsucc hfits
    rw [if_pos (by omega)]
    have hlen : (stored x (k + 1)).length = (stored x k).length + 1 + 1 := by
      simp [hsucc]
    obtain ⟨r₂, hstore', hfilled'⟩ := hfilled.store (by simpa using hfits) (byte ',')
    rw [List.length_append, List.length_singleton, Nat.cast_succ] at hstore'
    rw [hstore', hlen]
    refine ⟨r₂, rfl, ?_⟩
    rw [hsucc]
    exact hfilled'
  · have hlen : (stored x (k + 1)).length = (stored x k).length + 1 := by
      simp [hsucc, hgroup]
    rw [if_neg (by omega), hlen]
    refine ⟨r₁, rfl, ?_⟩
    rw [hsucc, if_neg hgroup, List.append_nil]
    exact hfilled

theorem exists_length_digits {x : ℕ} (hx : 0 < x) : ∃ m, (Nat.digits 10 x).length = m + 1 :=
  Nat.exists_eq_add_of_le' ((Nat.lt_digits_length_iff (by decide) x).mpr hx)

theorem pow_le_of_lt_length {x k : ℕ} (hk : k < (Nat.digits 10 x).length) : 10 ^ k ≤ x :=
  (Nat.lt_digits_length_iff (by decide) x).mp hk

/-- The loop after `k` turns. -/
theorem digitLoop_run (r : Buffer) (x : BitVec 64) {k : ℕ}
    (hk : k ≤ (Nat.digits 10 x.toNat).length) (hfits : k + k / 3 ≤ 20) :
    ∃ r' t, t.toNat = x.toNat / 10 ^ k ∧
      digitLoop x 0 0 r = digitLoop t (stored x.toNat k).length k r' ∧
      Filled r' (stored x.toNat k) := by
  induction k with
  | zero => exact ⟨r, x, by simp, rfl, filled_nil r⟩
  | succ k ih =>
      obtain ⟨r', t, ht, hrun, hfilled⟩ := ih (by omega) (by omega)
      have hpos : 0 < t.toNat := by
        rw [ht]
        exact Nat.div_pos (pow_le_of_lt_length (by omega)) (by positivity)
      obtain ⟨r'', hturn, hfilled'⟩ := digitLoop_turn ht hpos hfilled
        (by rw [length_stored]; exact hfits)
      refine ⟨r'', t / 10, ?_, hrun.trans hturn, hfilled'⟩
      calc (t / 10).toNat = x.toNat / 10 ^ k / 10 := by rw [toNat_div_ten, ht]
        _ = x.toNat / 10 ^ (k + 1) := by rw [Nat.div_div_eq_div_mul, pow_succ]

/-- The loop ends when all digits are stored. -/
theorem digitLoop_ends (r : Buffer) (x : BitVec 64) (h : x.toNat < 10 ^ 15) :
    ∃ r', digitLoop x 0 0 r
        = .ok ((stored x.toNat (Nat.digits 10 x.toNat).length).length, r') ∧
      Filled r' (stored x.toNat (Nat.digits 10 x.toNat).length) := by
  have hlen := (Nat.digits_length_le_iff (by decide) x.toNat).mpr h
  obtain ⟨r', t, ht, hrun, hfilled⟩ := digitLoop_run r x (le_refl _) (by omega)
  have hlast : x.toNat < 10 ^ (Nat.digits 10 x.toNat).length :=
    Nat.lt_base_pow_length_digits (by decide)
  rw [Nat.div_eq_of_lt hlast] at ht
  have hzero : ¬ 0 < t := by
    show ¬ 0 < t.toNat
    omega
  refine ⟨r', ?_, hfilled⟩
  rw [hrun, digitLoop, dif_neg hzero]

/-- The sixteenth digit does not fit. -/
theorem digitLoop_overflows (r : Buffer) (x : BitVec 64) (h : 10 ^ 15 ≤ x.toNat) :
    digitLoop x 0 0 r = .error (.store 20) := by
  have hlen := (Nat.lt_digits_length_iff (by decide) x.toNat).mpr h
  obtain ⟨r', t, ht, hrun, -⟩ := digitLoop_run r x (k := 15) (by omega) (by decide)
  have hpos : 0 < t.toNat := by
    rw [ht]
    exact Nat.div_pos h (by positivity)
  rw [hrun, length_stored, digitLoop, dif_pos (show 0 < t from hpos)]
  rfl

/-! ## The text -/

/-- The digits of `x` in groups of three, from the left. -/
def numeral (x : ℕ) : List Char :=
  (grouped 3 ',' (fun k => Nat.digitChar (x / 10 ^ k % 10)) (Nat.digits 10 x).length).reverse

theorem digitOf_ne (x k : ℕ) : digitOf x k ≠ byte ',' :=
  (byte_digitChar _ (Nat.mod_lt _ (by decide))).2

/-- The characters of the filled cells. -/
theorem printLoop_grouped {r : Buffer} {x : ℕ}
    (h : Filled r (grouped 3 (byte ',') (digitOf x) (Nat.digits 10 x).length)) :
    printLoop r (grouped 3 (byte ',') (digitOf x) (Nat.digits 10 x).length).length
      = .ok (numeral x) := by
  have hdigit : ∀ k, Char.ofNat (digitOf x k).toNat = Nat.digitChar (x / 10 ^ k % 10) :=
    fun k => (byte_digitChar _ (Nat.mod_lt _ (by decide))).1
  rw [printLoop_filled h, map_grouped, funext hdigit]
  rfl

/-- What follows the loop: a comma on the left is dropped. -/
theorem print_stored {r : Buffer} {x : ℕ} (hx : 0 < x)
    (h : Filled r (stored x (Nat.digits 10 x).length)) :
    (do
      let c ← load r ((stored x (Nat.digits 10 x).length).length - 1)
      let i : ℤ := if c = byte ',' then (stored x (Nat.digits 10 x).length).length - 1
        else (stored x (Nat.digits 10 x).length).length
      printLoop r i.toNat) = .ok (numeral x) := by
  obtain ⟨m, hm⟩ := exists_length_digits hx
  have hprint := printLoop_grouped (r := r) (x := x)
  rw [hm] at h hprint ⊢
  rw [stored, written_succ] at h ⊢
  by_cases hgroup : (m + 1) % 3 = 0
  · -- the digits fill their groups, and the last cell holds a comma
    rw [if_pos hgroup] at h ⊢
    have hload := h.load List.getElem?_concat_length
    rw [List.length_append, List.length_singleton, Nat.cast_succ, Int.add_sub_cancel, hload]
    dsimp only [bind, Except.bind]
    rw [if_pos rfl, Int.toNat_natCast]
    exact hprint h.left
  · rw [if_neg hgroup, List.append_nil] at h ⊢
    have hlen : (grouped 3 (byte ',') (digitOf x) (m + 1)).length
        = (written 3 (byte ',') (digitOf x) m).length + 1 := by
      rw [grouped, List.length_append, List.length_singleton]
    have hlast : (grouped 3 (byte ',') (digitOf x) (m + 1))[
        (written 3 (byte ',') (digitOf x) m).length]? = some (digitOf x m) :=
      List.getElem?_concat_length
    have hload := h.load hlast
    have hprint' := hprint h
    rw [hlen] at hprint' ⊢
    rw [Nat.cast_succ, Int.add_sub_cancel, hload]
    dsimp only [bind, Except.bind]
    rw [if_neg (digitOf_ne x m), ← Nat.cast_succ, Int.toNat_natCast]
    exact hprint'

theorem print_dec_zero (r : Buffer) : print_dec r 0 = .ok ['0'] := rfl

theorem ne_zero_of_toInt {x : BitVec 64} (h : x.toInt ≠ 0) : ¬ x = 0 := by
  rintro rfl
  exact h rfl

theorem print_dec_neg (r : Buffer) {x : BitVec 64} (h : x.toInt < 0) :
    print_dec r x = .ok ['-'] := by
  have hslt : x.slt 0 = true := by
    rw [BitVec.slt_iff_toInt_lt]
    exact h
  rw [print_dec, if_neg (ne_zero_of_toInt (by omega)), if_pos hslt]

theorem toNat_of_pos {x : BitVec 64} (h : 0 < x.toInt) : (x.toNat : ℤ) = x.toInt := by
  rw [BitVec.toInt_eq_toNat_cond] at h ⊢
  have hlt := x.isLt
  split_ifs at h ⊢
  · rfl
  · omega

theorem print_dec_pos (r : Buffer) {x : BitVec 64} (h : 0 < x.toInt) :
    print_dec r x
      = (do
          let (i, r) ← digitLoop x 0 0 r
          let c ← load r (i - 1)
          let i := if c = byte ',' then i - 1 else i
          printLoop r i.toNat) := by
  have hslt : ¬ x.slt 0 = true := by
    rw [BitVec.slt_iff_toInt_lt]
    exact not_lt_of_gt h
  rw [print_dec, if_neg (ne_zero_of_toInt (by omega)), if_neg hslt]

theorem print_dec_numeral (r : Buffer) {x : BitVec 64} (h : 0 < x.toInt) (hlt : x.toInt < 10 ^ 15) :
    print_dec r x = .ok (numeral x.toNat) := by
  have hnat := toNat_of_pos h
  obtain ⟨r', hloop, hfilled⟩ := digitLoop_ends r x (by omega)
  rw [print_dec_pos r h, hloop]
  exact print_stored (by omega) hfilled

theorem print_dec_overflows (r : Buffer) {x : BitVec 64} (h : 10 ^ 15 ≤ x.toInt) :
    print_dec r x = .error (.store 20) := by
  have hpos : 0 < x.toInt := by omega
  have hnat := toNat_of_pos hpos
  rw [print_dec_pos r hpos, digitLoop_overflows r x (by omega)]
  rfl

/-! ## Canonical numerals -/

/-- A text without its sign. -/
def body (text : List Char) : List Char := if text.head? = some '-' then text.tail else text

/-- The decimal numeral of `x` with a comma between the groups of three digits, counted from the
right. -/
structure Canonical (x : ℤ) (text : List Char) : Prop where
  sign : text.head? = some '-' ↔ x < 0
  nonempty : body text ≠ []
  digits : ∀ c ∈ body text, c.isDigit = true ∨ c = ','
  commas : ∀ p, (body text).reverse[p]? = some ',' ↔ p < (body text).length ∧ p % 4 = 3
  no_leading_comma : (body text).head? ≠ some ','
  no_leading_zero : (body text).head? = some '0' → body text = ['0']
  no_trailing_comma : (body text).getLast? ≠ some ','
  value : (String.ofList (text.filter (· ≠ ','))).toInt? = some x

theorem digitChar_ne {d : ℕ} (h : d < 10) :
    Nat.digitChar d ≠ ',' ∧ Nat.digitChar d ≠ '-' ∧ (Nat.digitChar d).isDigit = true := by
  interval_cases d <;> decide

theorem digitChar_mod_ne_comma (x k : ℕ) : Nat.digitChar (x / 10 ^ k % 10) ≠ ',' :=
  (digitChar_ne (Nat.mod_lt _ (by decide))).1

/-- Without the commas the numeral is the text of the number. -/
theorem filter_numeral {x : ℕ} (hx : 0 < x) : (numeral x).filter (· ≠ ',') = Nat.toDigits 10 x := by
  calc (numeral x).filter (· ≠ ',')
      = ((List.range (Nat.digits 10 x).length).map
          fun k => Nat.digitChar (x / 10 ^ k % 10)).reverse := by
        rw [numeral, List.filter_reverse, filter_grouped (digitChar_mod_ne_comma x)]
    _ = (((List.range (Nat.digits 10 x).length).map fun k => x / 10 ^ k % 10).map
          Nat.digitChar).reverse := by
        rw [List.map_map]
        rfl
    _ = Nat.toDigits 10 x := by
        rw [map_digit_range (by decide), toDigits_eq_digits (by decide) hx]

/-- The leftmost character is the first digit, and not a zero. -/
theorem head?_numeral {x : ℕ} (hx : 0 < x) :
    ∃ d, 0 < d ∧ d < 10 ∧ (numeral x).head? = some (Nat.digitChar d) := by
  obtain ⟨m, hm⟩ := exists_length_digits hx
  have hle : 10 ^ m ≤ x := pow_le_of_lt_length (by omega)
  have hlt : x < 10 ^ m * 10 := by
    rw [← pow_succ, ← hm]
    exact Nat.lt_base_pow_length_digits (by decide)
  have hdigit : x / 10 ^ m < 10 := Nat.div_lt_of_lt_mul hlt
  refine ⟨x / 10 ^ m, Nat.div_pos hle (by positivity), hdigit, ?_⟩
  rw [numeral, hm, grouped, List.reverse_append, Nat.mod_eq_of_lt hdigit]
  rfl

/-- The commas of the numeral stand after each third digit from the right. -/
theorem reverse_numeral_getElem? (x p : ℕ) :
    (numeral x).reverse[p]? = some ',' ↔ p < (numeral x).length ∧ p % 4 = 3 := by
  rw [numeral, List.reverse_reverse, List.length_reverse]
  exact getElem?_grouped_eq_sep_iff (by decide) (digitChar_mod_ne_comma x) _ p

theorem mem_numeral {x : ℕ} {c : Char} (h : c ∈ numeral x) : c.isDigit = true ∨ c = ',' := by
  rw [numeral, List.mem_reverse] at h
  rcases mem_grouped h with hsep | ⟨k, -, rfl⟩
  · exact Or.inr hsep
  · exact Or.inl (digitChar_ne (Nat.mod_lt _ (by decide))).2.2

theorem canonical_numeral {x : ℕ} (hx : 0 < x) : Canonical x (numeral x) := by
  obtain ⟨d, hpos, hd, hhead⟩ := head?_numeral hx
  obtain ⟨hcomma, hminus, -⟩ := digitChar_ne hd
  have hbody : body (numeral x) = numeral x := by
    rw [body, hhead, if_neg (fun h => hminus (Option.some_inj.mp h))]
  refine ⟨?_, ?_, ?_, ?_, ?_, ?_, ?_, ?_⟩
  · rw [hhead, Option.some_inj]
    exact iff_of_false hminus (by omega)
  · rw [hbody]
    intro hnil
    rw [hnil] at hhead
    cases hhead
  · rw [hbody]
    exact fun c hc => mem_numeral hc
  · rw [hbody]
    exact reverse_numeral_getElem? x
  · rw [hbody, hhead]
    exact fun h => hcomma (Option.some_inj.mp h)
  · rw [hbody, hhead, Option.some_inj, Nat.digitChar_eq_zero]
    omega
  · rw [hbody, ← List.head?_reverse, List.head?_eq_getElem?]
    intro hzero
    have hmod := ((reverse_numeral_getElem? x 0).mp hzero).2
    omega
  · rw [filter_numeral hx, ← Nat.repr_eq_ofList_toDigits]
    exact Nat.toInt?_repr x

theorem canonical_zero : Canonical 0 ['0'] := by
  have hbody : body ['0'] = ['0'] := rfl
  refine ⟨by decide, by decide, ?_, ?_, by decide, fun _ => rfl, by decide, Nat.toInt?_repr 0⟩
  · intro c hc
    rw [hbody, List.mem_singleton] at hc
    rw [hc]
    exact Or.inl rfl
  · intro p
    rw [hbody]
    cases p with
    | zero => decide
    | succ p => simp

/-- A sign alone is not a numeral. -/
theorem not_canonical_of_sign {r : Buffer} {x : BitVec 64} (h : print_dec r x = .ok ['-']) :
    ¬ ∃ text, print_dec r x = .ok text ∧ Canonical x.toInt text := by
  rintro ⟨text, htext, hcanonical⟩
  rw [h, Except.ok.injEq] at htext
  rw [← htext] at hcanonical
  exact hcanonical.nonempty rfl

/-- The three outcomes of `print_dec`. -/
theorem print_dec_cases (r : Buffer) (x : BitVec 64) :
    (x.toInt < 0 ∧ print_dec r x = .ok ['-']) ∨
    (0 ≤ x.toInt ∧ x.toInt < 10 ^ 15 ∧
      ∃ text, print_dec r x = .ok text ∧ Canonical x.toInt text) ∨
    (10 ^ 15 ≤ x.toInt ∧ print_dec r x = .error (.store 20)) := by
  by_cases hneg : x.toInt < 0
  · exact Or.inl ⟨hneg, print_dec_neg r hneg⟩
  · right
    by_cases hlarge : 10 ^ 15 ≤ x.toInt
    · exact Or.inr ⟨hlarge, print_dec_overflows r hlarge⟩
    · left
      refine ⟨by omega, by omega, ?_⟩
      by_cases hzero : x = 0
      · rw [hzero]
        exact ⟨['0'], print_dec_zero r, canonical_zero⟩
      · have hpos : 0 < x.toInt := by
          have hne : x.toInt ≠ 0 := fun h => hzero (BitVec.eq_of_toInt_eq h)
          omega
        have hnat := toNat_of_pos hpos
        refine ⟨numeral x.toNat, print_dec_numeral r hpos (by omega), ?_⟩
        rw [← hnat]
        exact canonical_numeral (by omega)

/-- **What `print_dec` prints.** For every 64-bit number, the text is its canonical numeral if and
only if the number is not negative and has at most fifteen digits. -/
theorem print_dec_canonical_iff (r : Buffer) (x : BitVec 64) :
    (∃ text, print_dec r x = .ok text ∧ Canonical x.toInt text)
      ↔ 0 ≤ x.toInt ∧ x.toInt < 10 ^ 15 := by
  rcases print_dec_cases r x with ⟨hneg, hprint⟩ | ⟨h0, hlt, htext⟩ | ⟨hlarge, hfault⟩
  · exact iff_of_false (not_canonical_of_sign hprint) (by omega)
  · exact iff_of_true htext ⟨h0, hlt⟩
  · refine iff_of_false ?_ (by omega)
    rintro ⟨text, htext, -⟩
    rw [hfault] at htext
    cases htext

/-- Of -1 only the sign is printed. -/
theorem print_dec_sign_only :
    print_dec (fun _ => 0) (-1) = .ok ['-'] ∧
    ¬ (∃ text, print_dec (fun _ => 0) (-1) = .ok text ∧ Canonical (-1) text) ∧
    ¬ ∀ (r : Buffer) (x : BitVec 64),
      ∃ text, print_dec r x = .ok text ∧ Canonical x.toInt text := by
  have hprint : print_dec (fun _ => 0) (-1) = .ok ['-'] := print_dec_neg _ (by decide)
  have hnone : ¬ ∃ text, print_dec (fun _ => 0) (-1) = .ok text ∧ Canonical (-1) text :=
    not_canonical_of_sign hprint
  exact ⟨hprint, hnone, fun h => hnone (h (fun _ => 0) (-1))⟩

/-! ## The bounds of the buffer -/

/-- All indices at which `print_dec` accesses `r` are within its bounds. -/
def InBounds (r : Buffer) (x : BitVec 64) : Prop := ∀ f : Fault, print_dec r x ≠ .error f

/-- **When the buffer is large enough.** Exactly for the numbers of at most fifteen digits, and for
the negative ones, which are not stored. -/
theorem print_dec_inBounds_iff (r : Buffer) (x : BitVec 64) :
    InBounds r x ↔ x.toInt < 10 ^ 15 := by
  unfold InBounds
  rcases print_dec_cases r x with ⟨hneg, hprint⟩ | ⟨_, hlt, text, htext, _⟩ | ⟨hlarge, hfault⟩
  · refine iff_of_true ?_ (by omega)
    intro f hf
    rw [hprint] at hf
    cases hf
  · refine iff_of_true ?_ hlt
    intro f hf
    rw [htext] at hf
    cases hf
  · exact iff_of_false (fun h => h _ hfault) (by omega)

/-- The sixteenth digit of `10 ^ 15` is stored in `r[20]`. -/
theorem print_dec_out_of_bounds :
    print_dec (fun _ => 0) 1000000000000000 = .error (.store 20) ∧
    ¬ ∀ (r : Buffer) (x : BitVec 64), InBounds r x := by
  have hfault : print_dec (fun _ => 0) 1000000000000000 = .error (.store 20) :=
    print_dec_overflows _ (by decide)
  exact ⟨hfault, fun h => h (fun _ => 0) 1000000000000000 _ hfault⟩

/-! ## What the tuner shows -/

end Sdr

end OneBitSDR
