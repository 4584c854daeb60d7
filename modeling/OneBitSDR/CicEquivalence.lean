import OneBitSDR.Cyclone.CicFilterResponse
import OneBitSDR.Lattice.Cic

set_option autoImplicit false

/-! # `CIC.v` and its port `cic_filter` are the same filter

`CIC` captures the last integrator on the edge of the terminal count, before that edge's
addition; `cic_filter` reads it one edge later, after one more addition. So `cic_filter` has to
be fed the samples one clock late. The data paths of both are the circuits of
`Signal/IntegratorComb.lean`, and what is left of their unrelated initial contents has been
flushed after ten comb edges.
-/

namespace OneBitSDR

open Clocked Signal

/-! ## Runs of `CIC` -/

namespace Cic

variable {width R : ℕ}

/-- The outputs after the comb edges among the first `n` edges. -/
def outputs (R : ℕ) (s : Cic width) (u : ℕ → CicPort) (n : ℕ) : List (BitVec 12) :=
  events (strobe (fun k => (run (step R) s u k).v_comb) (fun k => (run (step R) s u (k + 1)).d_out)) n

/-- What holds after `n` edges, `q` of them comb edges: the count, and the two data paths. -/
structure Inv (R : ℕ) (s₀ : Cic width) (u : ℕ → CicPort) (n q : ℕ) (s : Cic width) : Prop where
  count : s.count.toNat = n % R
  comb : s.v_comb = decide (0 < n ∧ R ∣ n)
  due : q + (if s.v_comb then 1 else 0) = n / R
  idata : s.idata = run integrate s₀.idata (fun k => (u k).d_in.signExtend width) n
  captured : s.v_comb = true → s.d_tmp = run integrate s₀.idata
    (fun k => (u k).d_in.signExtend width) (q * R + (R - 1)) 4
  combs : s.combs = run (Combs.step Nat.one_pos) s₀.combs
    (fun k => run integrate s₀.idata (fun k => (u k).d_in.signExtend width) (k * R + (R - 1)) 4) q

theorem Inv.init {s₀ : Cic width} {u : ℕ → CicPort} (h1 : s₀.count = 0)
    (h2 : s₀.v_comb = false) : Inv R s₀ u 0 0 s₀ where
  count := by rw [h1]; simp
  comb := by rw [h2]; simp
  due := by rw [h2]; simp
  idata := rfl
  captured := by rw [h2]; intro h; cases h
  combs := rfl

theorem Inv.next {s₀ s : Cic width} {u : ℕ → CicPort} {n q : ℕ} (hR : 2 ≤ R) (hR' : R ≤ 65536)
    (h : Inv R s₀ u n q s) :
    Inv R s₀ u (n + 1) (q + if s.v_comb then 1 else 0) (step R s (u n)) := by
  have hlt : n % R < R := Nat.mod_lt _ (by omega)
  have hend : atEnd R s = decide (R ∣ n + 1) := by
    rw [atEnd, h.count, decide_eq_decide, dvd_succ_iff hR]
  have hcomb : (step R s (u n)).v_comb = decide (R ∣ n + 1) := hend
  refine ⟨?_, ?_, ?_, ?_, ?_, ?_⟩
  · rw [succ_mod hR]
    by_cases hd : R ∣ n + 1
    · have hzero : (step R s (u n)).count = 0 := by simp [step, hend, hd]
      rw [hzero, if_pos ((dvd_succ_iff hR).mp hd)]
      rfl
    · have hcount : (step R s (u n)).count = s.count + 1 := by simp [step, hend, hd]
      have hne : n % R + 1 ≠ R := fun he => hd ((dvd_succ_iff hR).mpr he)
      rw [hcount, if_neg hne, BitVec.toNat_add, h.count]
      exact Nat.mod_eq_of_lt (by simp; omega)
  · rw [hcomb]
    simp
  · rw [hcomb, h.due, Nat.succ_div]
    simp only [decide_eq_true_eq]
  · rw [step_idata, h.idata, run_succ]
  · intro hv
    have hd : R ∣ n + 1 := of_decide_eq_true (hcomb.symm.trans hv)
    have hcap : (step R s (u n)).d_tmp = s.idata 4 := by
      simp only [step, hend, hd, decide_true, if_true]
      rfl
    -- no comb edge was due on the terminal count, so `n + 1` samples make the next one due
    have hdue : (q + if s.v_comb then 1 else 0) * R + R = n + 1 := by
      rw [h.due, ← Nat.succ_mul, Nat.succ_eq_add_one]
      rw [← Nat.succ_div_of_dvd hd]
      exact Nat.div_mul_cancel hd
    rw [hcap, h.idata, show (q + if s.v_comb then 1 else 0) * R + (R - 1) = n by omega]
  · -- the comb edge reads the value captured on the terminal count
    cases hv : s.v_comb with
    | true => rw [step_combs_enable hv, if_pos rfl, run_succ, ← h.combs, h.captured hv]
    | false =>
        rw [step_combs_hold hv, h.combs]
        rfl

theorem outputs_succ (s : Cic width) (u : ℕ → CicPort) (n : ℕ) :
    (outputs R s u (n + 1)).length
      = (outputs R s u n).length + if (run (step R) s u n).v_comb then 1 else 0 :=
  events_strobe_length_succ _ _ n

theorem inv_run {s₀ : Cic width} {u : ℕ → CicPort} (hR : 2 ≤ R) (hR' : R ≤ 65536)
    (h1 : s₀.count = 0) (h2 : s₀.v_comb = false) (n : ℕ) :
    Inv R s₀ u n (outputs R s₀ u n).length (run (step R) s₀ u n) := by
  induction n with
  | zero => exact Inv.init h1 h2
  | succ n ih =>
      rw [run_succ, outputs_succ]
      exact ih.next hR hR'

/-- The last comb of a run. -/
theorem run_d10 {s₀ : Cic width} {u : ℕ → CicPort} (hR : 2 ≤ R) (hR' : R ≤ 65536)
    (h1 : s₀.count = 0) (h2 : s₀.v_comb = false) (n : ℕ) :
    (run (step R) s₀ u n).d10
      = (run (Combs.step Nat.one_pos) s₀.combs
          (fun k => run integrate s₀.idata (fun k => (u k).d_in.signExtend width)
            (k * R + (R - 1)) 4) (outputs R s₀ u n).length).node 4 :=
  congrFun (congrArg Combs.node (inv_run hR hR' h1 h2 n).combs) 4

/-- The number of comb edges among the first `n + 1` edges. -/
theorem outputs_length {s₀ : Cic width} {u : ℕ → CicPort} (hR : 2 ≤ R) (hR' : R ≤ 65536)
    (h1 : s₀.count = 0) (h2 : s₀.v_comb = false) (n : ℕ) :
    (outputs R s₀ u (n + 1)).length = n / R := by
  rw [outputs_succ]
  exact (inv_run hR hR' h1 h2 n).due

end Cic

/-! ## The two filters side by side -/

/-- The parameters of the port: `cic_filter` with the word sizes and the structure of `CIC`. -/
def portParams (R : ℕ) (hR : 2 ≤ R) : CicParams where
  WIDTH := 12
  STAGES := 5
  DDELAY := 1
  DECIMATION := R
  WIDTHR := 12
  stages_pos := Nat.le_add_left 1 4
  ddelay_pos := Nat.le_add_left 1 0
  decimation_two := hR
  widthr_le := by decide

theorem portParams_WIDTHO (R : ℕ) (hR : 2 ≤ R) :
    (portParams R hR).WIDTHO = 12 + 5 * Nat.clog 2 R := by
  show 12 + 5 * Nat.clog 2 (R * 1) = 12 + 5 * Nat.clog 2 R
  rw [Nat.mul_one]

/-- The inputs of `CIC` in the two-filter setting. -/
def latticeIn (d_in : ℕ → BitVec 12) (gain : ℕ → BitVec 4) (n : ℕ) : CicPort where
  Gain := (gain n).setWidth 8
  d_in := d_in n

/-- The inputs of the port: the same gain, and the samples one clock late after a first sample
`x`. -/
def portIn {R : ℕ} {hR : 2 ≤ R} (x : BitVec 12) (d_in : ℕ → BitVec 12) (gain : ℕ → BitVec 4)
    (dontcare : ℕ → CicFilter (portParams R hR)) (n : ℕ) : CicIn (portParams R hR) where
  clock_sreset := false
  gain := gain n
  data_in_valid := true
  data_in := registered x d_in n
  dontcare := dontcare n

section SideBySide

variable {R : ℕ} {hR : 2 ≤ R} {c : Cic (portParams R hR).WIDTHO} {f : CicFilter (portParams R hR)}
  (x : BitVec 12) (d_in : ℕ → BitVec 12) (gain : ℕ → BitVec 4)
  (dontcare : ℕ → CicFilter (portParams R hR))

/-- Both filters execute their combs on the same edges. -/
theorem comb_edges_agree (hR' : R ≤ 65536) (hc : c.count = 0) (hv : c.v_comb = false)
    (hf : f.decimation_count = 0) (he : f.comb_enable = false) (n : ℕ) :
    (run (Cic.step R) c (latticeIn d_in gain) n).v_comb
      = (run CicFilter.step f (portIn x d_in gain dontcare) n).comb_enable := by
  rw [(Cic.inv_run hR hR' hc hv n).comb,
    CicFilter.comb_enable_of_valid hf he (fun _ => rfl) (fun _ => rfl)]
  rfl

theorem comb_counts_agree (hR' : R ≤ 65536) (hc : c.count = 0) (hv : c.v_comb = false)
    (hf : f.decimation_count = 0) (he : f.comb_enable = false) (n : ℕ) :
    (Cic.outputs R c (latticeIn d_in gain) n).length
      = (CicFilter.pulses f (portIn x d_in gain dontcare) n).length := by
  induction n with
  | zero => rfl
  | succ n ih =>
      rw [Cic.outputs_succ, CicFilter.pulses_succ (fun _ => rfl), ih,
        comb_edges_agree x d_in gain dontcare hR' hc hv hf he n]

/-- The samples of the port list its inputs. -/
theorem lists_registered (N : ℕ) :
    CicFilter.Lists (registered x d_in) (portIn x d_in gain dontcare) N := by
  intro k _ _
  rw [CicFilter.accepted_length_of_valid (fun _ => rfl)]
  rfl

theorem shiftAmount_agree {g : BitVec 4} (hg : g.toNat ≤ 5 * Nat.clog 2 R) :
    Cic.shiftAmount (portParams R hR).WIDTHO (g.setWidth 8)
      = (portParams R hR).shiftAmount g := by
  have hw := portParams_WIDTHO R hR
  have hr : (portParams R hR).WIDTHR = 12 := rfl
  have hset : (g.setWidth 8).toNat = g.toNat := by
    rw [BitVec.toNat_setWidth]
    exact Nat.mod_eq_of_lt (by have := g.isLt; omega)
  rw [Cic.shiftAmount_of_le (by omega), CicParams.shiftAmount_of_le (by omega), hset, hr]

/-- The outputs after a comb edge agree as soon as the last comb registers do. -/
theorem outputs_agree_of_node (hg : ∀ n, (gain n).toNat ≤ 5 * Nat.clog 2 R) (n : ℕ)
    (hcomb : (run (Cic.step R) c (latticeIn d_in gain) n).v_comb = true)
    (hnode : (run (Cic.step R) c (latticeIn d_in gain) n).d10
      = (run CicFilter.step f (portIn x d_in gain dontcare) n).sub_node (portParams R hR).lastStage) :
    (run (Cic.step R) c (latticeIn d_in gain) (n + 1)).d_out
      = (run CicFilter.step f (portIn x d_in gain dontcare) (n + 1)).data_out := by
  have hshift : Cic.shiftAmount (portParams R hR).WIDTHO (latticeIn d_in gain n).Gain
      = (portParams R hR).shiftAmount (portIn x d_in gain dontcare n).gain :=
    shiftAmount_agree (hg n)
  rw [run_succ, Cic.step_d_out hcomb, run_succ, CicFilter.step_data_out rfl, hnode, hshift]
  rfl

/-- The last comb of the port. -/
theorem run_sub_node (hf : f.decimation_count = 0) (he : f.comb_enable = false) (n : ℕ) :
    (run CicFilter.step f (portIn x d_in gain dontcare) n).sub_node (portParams R hR).lastStage
      = (run (Combs.step Nat.one_pos) f.combs
          (fun k => run integrate f.idata_reg
            (fun k => (registered x d_in k).signExtend (portParams R hR).WIDTHO)
            (k * R + R) (portParams R hR).lastStage)
          (CicFilter.pulses f (portIn x d_in gain dontcare) n).length).node
          (portParams R hR).lastStage := by
  have hinv := CicFilter.cicInv_run hf he (fun _ => rfl)
    (lists_registered x d_in gain dontcare n) n (le_refl n)
  exact congrFun (congrArg Combs.node hinv.combs) (portParams R hR).lastStage

/-- After ten comb edges the last comb registers hold the same window sum. -/
theorem nodes_agree_flushed (hR' : R ≤ 65536) (hc : c.count = 0) (hv : c.v_comb = false)
    (hf : f.decimation_count = 0) (he : f.comb_enable = false) (n : ℕ)
    (hq : 10 ≤ (Cic.outputs R c (latticeIn d_in gain) n).length) :
    (run (Cic.step R) c (latticeIn d_in gain) n).d10
      = (run CicFilter.step f (portIn x d_in gain dontcare) n).sub_node
        (portParams R hR).lastStage := by
  rcases Nat.exists_eq_add_of_le' hq with ⟨q, hlen⟩
  have hlen' := (comb_counts_agree x d_in gain dontcare hR' hc hv hf he n).symm.trans hlen
  have hsumL := cascade_response (M := 1) (by decide : 0 < 5) Nat.one_pos R (R - 1) (by omega)
    c.idata c.combs (fun k => (latticeIn d_in gain k).d_in.signExtend (portParams R hR).WIDTHO) q
  have hsumF := cascade_response (M := 1) (by decide : 0 < 5) Nat.one_pos R R (by omega)
    f.idata_reg f.combs (fun k => (registered x d_in k).signExtend (portParams R hR).WIDTHO) q
  rw [Cic.run_d10 hR hR' hc hv, run_sub_node x d_in gain dontcare hf he, hlen, hlen']
  refine hsumL.trans (Eq.trans ?_ hsumF.symm)
  -- the sums are over the same samples: the port reads each one a clock later
  refine Finset.sum_congr rfl fun j _ => ?_
  rw [show q * R + R + j = q * R + (R - 1) + j + 1 by omega, registered_succ]
  rfl

/-- From cleared data registers, and after a zero as the first sample of the port, the last
comb registers agree all the time. -/
theorem nodes_agree_cleared (hR' : R ≤ 65536) (hc : c.count = 0) (hv : c.v_comb = false)
    (hf : f.decimation_count = 0) (he : f.comb_enable = false) (hx : x = 0)
    (hci : c.idata = fun _ => 0) (hcc : c.combs = ⟨fun _ _ => 0, fun _ => 0⟩)
    (hfi : f.idata_reg = fun _ => 0) (hfc : f.combs = ⟨fun _ _ => 0, fun _ => 0⟩) (n : ℕ) :
    (run (Cic.step R) c (latticeIn d_in gain) n).d10
      = (run CicFilter.step f (portIn x d_in gain dontcare) n).sub_node
        (portParams R hR).lastStage := by
  have hlen := comb_counts_agree x d_in gain dontcare hR' hc hv hf he n
  have hlate : (fun k => (registered x d_in k).signExtend (portParams R hR).WIDTHO)
      = registered 0 (fun k => (d_in k).signExtend (portParams R hR).WIDTHO) := by
    funext k
    cases k with
    | zero =>
        show x.signExtend _ = 0
        rw [hx]
        exact BitVec.eq_of_toInt_eq (by simp [BitVec.toInt_signExtend])
    | succ k => rfl
  -- the combs read the same samples: the integrators of the port are one clock behind
  have hinput : (fun k => run integrate (fun _ : Fin 5 => (0 : BitVec (portParams R hR).WIDTHO))
        (fun k => (d_in k).signExtend (portParams R hR).WIDTHO) (k * R + (R - 1)) 4)
      = fun k => run integrate (fun _ : Fin 5 => (0 : BitVec (portParams R hR).WIDTHO))
        (fun k => (registered x d_in k).signExtend (portParams R hR).WIDTHO) (k * R + R) 4 := by
    funext k
    rw [hlate, show k * R + R = k * R + (R - 1) + 1 by omega, integrate_registered]
  rw [Cic.run_d10 hR hR' hc hv, run_sub_node x d_in gain dontcare hf he, hlen, hcc, hci, hfc, hfi]
  exact congrArg (fun v => (run (Combs.step Nat.one_pos)
    (⟨fun _ _ => 0, fun _ => 0⟩ : Combs (BitVec (portParams R hR).WIDTHO) 5 1) v _).node 4) hinput

end SideBySide

/-- **`cic_filter` is a port of `CIC`.** With `width = 12 + 5 ⌈log₂ R⌉`, the same gain and the
samples of `cic_filter` one clock late, both execute their combs on the same edges, and the
outputs right after those edges agree: from the eleventh on for unrelated contents of the data
registers, always for cleared ones and a zero as first sample. -/
theorem cic_port_agrees (R : ℕ) (hR : 2 ≤ R) (hR' : R ≤ 65536) (width : ℕ)
    (hw : width = 12 + 5 * Nat.clog 2 R) (c : Cic width) (hc : c.count = 0)
    (hv : c.v_comb = false) (f : CicFilter (portParams R hR)) (hf : f.decimation_count = 0)
    (he : f.comb_enable = false) (x : BitVec 12) (d_in : ℕ → BitVec 12) (gain : ℕ → BitVec 4)
    (hg : ∀ n, (gain n).toNat ≤ 5 * Nat.clog 2 R)
    (dontcare : ℕ → CicFilter (portParams R hR)) :
    (∀ n, (run (Cic.step R) c (latticeIn d_in gain) n).v_comb
      = (run CicFilter.step f (portIn x d_in gain dontcare) (n + 1)).data_out_valid) ∧
    (∀ n, (run (Cic.step R) c (latticeIn d_in gain) n).v_comb = true →
      11 ≤ (Cic.outputs R c (latticeIn d_in gain) (n + 1)).length →
      (run (Cic.step R) c (latticeIn d_in gain) (n + 1)).d_out
        = (run CicFilter.step f (portIn x d_in gain dontcare) (n + 1)).data_out) ∧
    (c.idata = (fun _ => 0) → c.combs = ⟨fun _ _ => 0, fun _ => 0⟩ →
      f.idata_reg = (fun _ => 0) → f.combs = ⟨fun _ _ => 0, fun _ => 0⟩ → x = 0 →
      ∀ n, (run (Cic.step R) c (latticeIn d_in gain) n).v_comb = true →
        (run (Cic.step R) c (latticeIn d_in gain) (n + 1)).d_out
          = (run CicFilter.step f (portIn x d_in gain dontcare) (n + 1)).data_out) := by
  rw [← portParams_WIDTHO R hR] at hw
  subst hw
  refine ⟨?_, ?_, ?_⟩
  · intro n
    rw [run_succ CicFilter.step, CicFilter.step_data_out_valid rfl]
    exact comb_edges_agree x d_in gain dontcare hR' hc hv hf he n
  · intro n hcomb hlen
    rw [Cic.outputs_succ, hcomb, if_pos rfl] at hlen
    exact outputs_agree_of_node x d_in gain dontcare hg n hcomb
      (nodes_agree_flushed x d_in gain dontcare hR' hc hv hf he n (by omega))
  · intro hci hcc hfi hfc hx n hcomb
    exact outputs_agree_of_node x d_in gain dontcare hg n hcomb
      (nodes_agree_cleared x d_in gain dontcare hR' hc hv hf he hx hci hcc hfi hfc n)

/-! ### Decimation by two, from unrelated register contents -/

def latticeGarbage : Cic 17 where
  d_tmp := 1
  d_d_tmp := 2
  d1 := 3
  d2 := 4
  d3 := 5
  d4 := 6
  d5 := 7
  d6 := 8
  d_d6 := 9
  d7 := 10
  d_d7 := 11
  d8 := 12
  d_d8 := 13
  d9 := 14
  d_d9 := 15
  d10 := 16
  d_scaled := 17
  count := 0
  v_comb := false
  d_clk_tmp := true
  d_out := 18
  d_clk := false

def portGarbage : CicFilter (portParams 2 (le_refl 2)) where
  idata_reg _ := 100
  cdata_reg _ _ := 200
  sub_node _ := 300
  decimation_count := 0
  comb_enable := false
  data_out_valid := false
  data_out := 400

/-- The eleventh comb edge is edge 22. -/
theorem cic_port_agrees_by_two :
    (run (Cic.step 2) latticeGarbage (latticeIn (BitVec.ofNat 12) (fun _ => 5)) 23).d_out
      = (run CicFilter.step portGarbage
          (portIn 7 (BitVec.ofNat 12) (fun _ => 5) (fun _ => portGarbage)) 23).data_out :=
  (cic_port_agrees 2 (by decide) (by decide) 17 (by decide) latticeGarbage rfl rfl portGarbage
    rfl rfl 7 (BitVec.ofNat 12) (fun _ => 5) (fun _ => by decide) (fun _ => portGarbage)).2.1 22
    (by rw [(Cic.inv_run (by decide) (by decide) rfl rfl 22).comb]; decide)
    (by rw [Cic.outputs_length (by decide) (by decide) rfl rfl])

end OneBitSDR
