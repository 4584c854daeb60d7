import OneBitSDR.Clocked.Run
import OneBitSDR.Software.PrintDec

set_option autoImplicit false

/-! # The loop of `sdr.c` on the processor

A pass of the loop prints four numbers, writes two registers that the processor exports, and waits
for a key. The processor needs any number of clocks for each of these statements. So after a key the
console and the registers do not change together: each of them shows the tuning of the keys for
which its statement has been executed last.
-/

namespace OneBitSDR

open Clocked

namespace Sdr

/-! ## The statements -/

/-- The numbers on the console. -/
inductive Line
  | clock
  | freq
  | step
  | gain
  deriving DecidableEq

/-- The statements of the loop with an effect outside `main`, and the one that reads the key. -/
inductive Statement
  | print (line : Line)
  | writePhase
  | writeGain
  | getKey
  deriving DecidableEq

/-- The place of a statement in the loop. -/
def Statement.place : Statement → ℕ
  | .print .clock => 0
  | .print .freq => 1
  | .print .step => 2
  | .print .gain => 3
  | .writePhase => 4
  | .writeGain => 5
  | .getKey => 6

/-- The statement that comes next. -/
def Statement.succ : Statement → Statement
  | .print .clock => .print .freq
  | .print .freq => .print .step
  | .print .step => .print .gain
  | .print .gain => .writePhase
  | .writePhase => .writeGain
  | .writeGain => .getKey
  | .getKey => .print .clock

/-- The argument of `print_dec` in a line. -/
def Line.number : Line → Main → BitVec 64
  | .clock, _ => BitVec.ofNat 64 PLL_FREQ
  | .freq, s => s.pass.printedFreq
  | .step, s => s.pass.printedStep
  | .gain, s => s.pass.printedGain

/-- `main` on the processor: its variables and the next statement, the numbers printed last, and the
exported registers. -/
structure Loop where
  vars : Main
  next : Statement
  screen : Line → Option (BitVec 64)
  PHASE_INCREMENT : BitVec 32
  CIC_GAIN : BitVec 4

namespace Loop

/-- What a clock brings: the reset, whether the next statement is completed, and the value of
`alt_getchar`. `undefined` is what is written where the conversion of the increment to `long` is not
defined. -/
structure Ports where
  reset : Bool
  executes : Bool
  key : BitVec 32
  undefined : BitVec 32

/-- The program is started again and the exported registers are cleared; the console keeps what it
shows. -/
def restart (s : Loop) : Loop where
  vars := Main.start
  next := .print .clock
  screen := s.screen
  PHASE_INCREMENT := 0
  CIC_GAIN := 0

/-- The next statement. -/
def execute (s : Loop) (i : Ports) : Loop :=
  match s.next with
  | .print line =>
      { s with
        screen := Function.update s.screen line (some (line.number s.vars))
        next := s.next.succ }
  | .writePhase =>
      { s with
        PHASE_INCREMENT := s.vars.pass.PHASE_INCREMENT.getD i.undefined
        next := s.next.succ }
  | .writeGain =>
      { s with
        CIC_GAIN := s.vars.pass.CIC_GAIN.setWidth 4
        next := s.next.succ }
  -- the rest of the body assigns variables only
  | .getKey => { s with vars := s.vars.handleKey i.key, next := s.next.succ }

/-- One clock of the processor. -/
def step (s : Loop) (i : Ports) : Loop :=
  if i.reset then s.restart else if i.executes then s.execute i else s

/-- The key that is read in a clock. -/
def reads (s : Loop) (i : Ports) : Option (BitVec 32) :=
  if i.executes = true ∧ s.next = .getKey then some i.key else none

/-- The keys read by the first `n` clocks. -/
def typed (s : Loop) (u : ℕ → Ports) (n : ℕ) : List (BitVec 32) :=
  events (fun k => (run step s u k).reads (u k)) n

/-- The keys that had been read when the statement was executed last. -/
def lastExecuted (s : Loop) (u : ℕ → Ports) (st : Statement) : ℕ → Option (List (BitVec 32))
  | 0 => none
  | n + 1 =>
      if (u n).executes = true ∧ (run step s u n).next = st then some (s.typed u n)
      else s.lastExecuted u st n

end Loop

/-! ## The keys a statement goes by -/

/-- The keys of the last execution of a statement, if the next one is `next` and `keys` have been
read: in this pass or in the one before. -/
def executedFor (next st : Statement) (keys : List (BitVec 32)) : Option (List (BitVec 32)) :=
  if st.place < next.place then some keys
  else if keys = [] then none
  else some keys.dropLast

section ExecutedFor

variable {x st : Statement} {keys : List (BitVec 32)}

theorem place_succ (hx : x ≠ .getKey) : x.succ.place = x.place + 1 := by
  rcases x with (_ | _ | _ | _) | _ | _ | _
  case getKey => exact absurd rfl hx
  all_goals rfl

theorem place_inj : st.place = x.place ↔ st = x := by
  constructor
  · intro h
    rcases x with (_ | _ | _ | _) | _ | _ | _ <;> rcases st with (_ | _ | _ | _) | _ | _ | _ <;>
      first | rfl | cases h
  · rintro rfl
    rfl

theorem place_le (st : Statement) : st.place ≤ 6 := by
  rcases st with (_ | _ | _ | _) | _ | _ | _ <;> decide

/-- An executed statement goes by the keys read so far, and the others go by what they did. -/
theorem executedFor_succ (hx : x ≠ .getKey) :
    executedFor x.succ st keys = if st = x then some keys else executedFor x st keys := by
  have hplace : st.place = x.place ↔ st = x := place_inj
  unfold executedFor
  rw [place_succ hx]
  by_cases heq : st = x
  · rw [if_pos heq, heq, if_pos (Nat.lt_succ_self _)]
  · rw [if_neg heq]
    by_cases hlt : st.place < x.place
    · rw [if_pos hlt, if_pos (by omega)]
    · rw [if_neg hlt, if_neg (by rw [← hplace] at heq; omega)]

/-- Before the key all statements of the pass have been executed. -/
theorem executedFor_getKey (hst : st ≠ .getKey) : executedFor .getKey st keys = some keys := by
  have hplace : st.place = Statement.getKey.place ↔ st = .getKey := place_inj
  have hle := place_le st
  rw [executedFor, if_pos]
  exact lt_of_le_of_ne hle (fun heq => hst (hplace.mp heq))

theorem executedFor_start (st : Statement) (key : BitVec 32) :
    executedFor (.print .clock) st (keys ++ [key]) = some keys := by
  have hstart : ¬ st.place < (Statement.print .clock).place := Nat.not_lt_zero _
  rw [executedFor, if_neg hstart, if_neg (by simp), List.dropLast_concat]

end ExecutedFor

namespace Loop

/-- The program has read `keys`; the console and the registers show the tuning of the keys for which
their statements have been executed last. -/
structure Follows (s : Loop) (keys : List (BitVec 32)) : Prop where
  vars : s.vars = Main.afterKeys keys
  tunable : ∀ st, ∀ k ∈ executedFor s.next st keys, Tunable (Tuning.asked k).hz
  screen : ∀ line, ∀ k ∈ executedFor s.next (.print line) keys,
    s.screen line = some (line.number (Main.afterKeys k))
  phase : ∀ k ∈ executedFor s.next .writePhase keys,
    (Main.afterKeys k).pass.PHASE_INCREMENT = some s.PHASE_INCREMENT
  gain : ∀ k ∈ executedFor s.next .writeGain keys,
    s.CIC_GAIN = (Main.afterKeys k).pass.CIC_GAIN.setWidth 4

end Loop

/-- A tunable frequency is shown as it is, and written. -/
theorem Tunable.faithful {keys : List (BitVec 32)} (h : Tunable (Tuning.asked keys).hz) :
    Faithful (Main.afterKeys keys) ∧
      ((Main.afterKeys keys).freq.toNat : ℤ) = (Tuning.asked keys).hz := by
  have hfreq := toNat_freq keys
  unfold Tunable PLL_FREQ at h
  refine ⟨faithful_of_lt keys ?_, by omega⟩
  unfold PLL_FREQ
  omega

namespace Loop

section Execute

variable {s : Loop} {keys : List (BitVec 32)} {i : Ports}

/-- A statement other than the last one of a pass. -/
theorem Follows.execute (h : s.Follows keys) (htunable : Tunable (Tuning.asked keys).hz)
    (hnext : s.next ≠ .getKey) : (s.execute i).Follows keys := by
  -- the keys of a statement that is not executed are those of before
  have hother : ∀ {st k}, st ≠ s.next → k ∈ executedFor s.next.succ st keys →
      k ∈ executedFor s.next st keys := by
    intro st k hne hk
    rwa [executedFor_succ hnext, if_neg hne] at hk
  have hnow : ∀ {k}, k ∈ executedFor s.next.succ s.next keys → k = keys := by
    intro k hk
    rw [executedFor_succ hnext, if_pos rfl] at hk
    exact (Option.some_inj.mp hk).symm
  have hall : ∀ st, ∀ k ∈ executedFor s.next.succ st keys, Tunable (Tuning.asked k).hz := by
    intro st k hk
    by_cases heq : st = s.next
    · rw [heq] at hk
      rw [hnow hk]
      exact htunable
    · exact h.tunable st k (hother heq hk)
  have hscreen := h.screen
  have hphase := h.phase
  have hgain := h.gain
  unfold Loop.execute
  cases hx : s.next with
  | getKey => exact absurd hx hnext
  | print line =>
      rw [hx] at hother hnow hall hscreen hphase hgain
      refine ⟨h.vars, hall, ?_, fun k hk => hphase k (hother (by simp) hk),
        fun k hk => hgain k (hother (by simp) hk)⟩
      intro line' k hk
      show Function.update _ _ _ _ = _
      by_cases heq : line' = line
      · subst heq
        rw [Function.update_self, hnow hk, h.vars]
      · have hne : Statement.print line' ≠ .print line := fun hsame => heq (by injection hsame)
        rw [Function.update_of_ne heq]
        exact hscreen line' k (hother hne hk)
  | writePhase =>
      rw [hx] at hother hnow hall hscreen hphase hgain
      refine ⟨h.vars, hall, fun line k hk => hscreen line k (hother (by simp) hk), ?_,
        fun k hk => hgain k (hother (by simp) hk)⟩
      intro k hk
      obtain ⟨phase, hwritten, -⟩ := htunable.faithful.1.written
      rw [hnow hk]
      dsimp only
      rw [h.vars, hwritten, Option.getD_some]
  | writeGain =>
      rw [hx] at hother hnow hall hscreen hphase hgain
      refine ⟨h.vars, hall, fun line k hk => hscreen line k (hother (by simp) hk),
        fun k hk => hphase k (hother (by simp) hk), ?_⟩
      intro k hk
      rw [hnow hk]
      dsimp only
      rw [h.vars]

/-- A key starts the next pass: everything shows the tuning before it. -/
theorem Follows.getKey (h : s.Follows keys) (htunable : Tunable (Tuning.asked keys).hz)
    (hnext : s.next = .getKey) : (s.execute i).Follows (keys ++ [i.key]) := by
  have hbefore : ∀ {st k}, k ∈ executedFor (.print .clock) st (keys ++ [i.key]) → k = keys := by
    intro st k hk
    rw [executedFor_start] at hk
    exact (Option.some_inj.mp hk).symm
  have hlast : ∀ {st}, st ≠ .getKey → keys ∈ executedFor s.next st keys := by
    intro st hst
    rw [hnext, executedFor_getKey hst]
    rfl
  unfold Loop.execute
  rw [hnext]
  refine ⟨?_, ?_, ?_, ?_, ?_⟩
  · show s.vars.handleKey i.key = _
    rw [h.vars, afterKeys_append]
  · intro st k hk
    rw [hbefore hk]
    exact htunable
  · intro line k hk
    rw [hbefore hk]
    exact h.screen line keys (hlast (by simp))
  · intro k hk
    rw [hbefore hk]
    exact h.phase keys (hlast (by simp))
  · intro k hk
    rw [hbefore hk]
    exact h.gain keys (hlast (by simp))

/-- **One clock.** -/
theorem Follows.step (h : s.Follows keys) (htunable : Tunable (Tuning.asked keys).hz)
    (hi : i.reset = false) : (s.step i).Follows (keys ++ (s.reads i).toList) := by
  unfold Loop.step reads
  rw [hi, if_neg (by decide)]
  by_cases hexecutes : i.executes = true
  · rw [if_pos hexecutes]
    by_cases hnext : s.next = .getKey
    · rw [if_pos ⟨hexecutes, hnext⟩]
      exact h.getKey htunable hnext
    · rw [if_neg (fun hread => hnext hread.2), Option.toList_none, List.append_nil]
      exact h.execute htunable hnext
  · rw [if_neg hexecutes, if_neg (fun hread => hexecutes hread.1), Option.toList_none,
      List.append_nil]
    exact h

end Execute

end Loop

/-- What a line is to show after the keys. -/
def Line.value : Line → List (BitVec 32) → ℤ
  | .clock, _ => PLL_FREQ
  | .freq, keys => (Tuning.asked keys).hz
  | .step, keys => 1000 * (Tuning.asked keys).kHzStep
  | .gain, keys => (Main.afterKeys keys).gain.toNat

end Sdr

end OneBitSDR
