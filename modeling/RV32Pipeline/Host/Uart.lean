import RV32Pipeline.Host.Memory
import RV32Pipeline.Lib.Clocked

/-!
# The filter of `mmio_write`

The circuit is evaluated twice in a clock cycle and may call `pmem_write` several times for one
store, so `mmio_write` ignores a call that comes within three steps of `sim_time` after the last one
that it let through. A step is an evaluation, so the filter also drops a store in the cycle after
another one; and it drops stores after `sim_time` has started again at 0 with a new wave file.
-/

namespace RV32Pipeline

/-- What the evaluations call in a clock cycle: the word of a store to `UART_TX`, if there is one,
the calls for it after the first in the evaluation with `clk` = 1, and those in the next evaluation
with `clk` = 0. -/
structure UartCycle where
  store : Option Word
  again : ℕ
  low : ℕ

namespace Host

/-- The calls of `pmem_write` for a store in an evaluation. -/
def writes (store : Option Word) (calls : ℕ) (h : Host) : Host :=
  match store with
  | none => h
  | some data => (pmemWrite · uartTx data 0b0001#4)^[calls] h

/-- The function `single_cycle`: an evaluation with `clk` = 0 and one with `clk` = 1. -/
def singleCycle (low high : Host → Host) (h : Host) : Host :=
  (h.evalAndWaveTrace low).evalAndWaveTrace high

/-- The calls in the evaluation with `clk` = 0 that ends the clock cycle before cycle `n`. -/
def lowCalls (c : ℕ → UartCycle) : ℕ → Host → Host
  | 0 => id
  | n + 1 => writes (c n).store (c n).low

/-- The simulator after `n` calls of `single_cycle`. -/
def afterCycles (pmem : ByteMem 32) (c : ℕ → UartCycle) : ℕ → Host
  | 0 => init pmem
  | n + 1 => (afterCycles pmem c n).singleCycle (lowCalls c n)
      (writes (c n).store ((c n).again + 1))

/-- The simulator when the clock cycles before cycle `n` are over, in the middle of a
`single_cycle`. -/
def atCycle (pmem : ByteMem 32) (c : ℕ → UartCycle) (n : ℕ) : Host :=
  (afterCycles pmem c n).evalAndWaveTrace (lowCalls c n)

/-! ## The calls of an evaluation -/

/-- The filter lets a call through. -/
def Passes (h : Host) : Prop := 3 ≤ h.simTime - h.lastSimtime

instance (h : Host) : Decidable h.Passes := inferInstanceAs (Decidable (3 ≤ _))

/-- The byte that a store to `UART_TX` prints. -/
def uartByte (data : Word) : BitVec 8 := data.extractLsb' 0 8

/-- One call of `pmem_write` for a store to `UART_TX`. -/
theorem pmemWrite_uartTx (h : Host) (data : Word) (wmask : BitVec 4) :
    h.pmemWrite uartTx data wmask =
      if h.Passes then
        { h.skipRef with lastSimtime := h.simTime, uart := h.uart ++ [uartByte data] }
      else h.skipRef := by
  have hm : inMmio uartTx = true := by decide
  simp only [pmemWrite, hm, if_true, mmioWrite, skipRef, Passes]
  by_cases hp : h.simTime - h.lastSimtime < 3
  · simp [hp, not_le.mpr hp]
  · simp [hp, not_lt.mp hp, uartWrite, uartByte]

/-- The calls of an evaluation: the first one is let through or dropped, and the others are
dropped. -/
theorem writes_some (h : Host) (data : Word) (calls : ℕ) :
    writes (some data) calls h =
      if calls = 0 then h
      else if h.Passes then
        { h.skipRef with lastSimtime := h.simTime, uart := h.uart ++ [uartByte data] }
      else h.skipRef := by
  induction calls with
  | zero => rfl
  | succ calls ih =>
    rw [writes] at ih ⊢
    rw [Function.iterate_succ_apply', ih, if_neg calls.succ_ne_zero]
    rcases eq_or_ne calls 0 with rfl | h0
    · exact pmemWrite_uartTx h data 0b0001#4
    · rw [if_neg h0]
      by_cases hp : h.Passes
      · -- The last call has set `last_simtime` to the present time.
        have hn : ¬ Passes { h.skipRef with
            lastSimtime := h.simTime, uart := h.uart ++ [uartByte data] } := by
          simp [Passes, skipRef]
        rw [if_pos hp, pmemWrite_uartTx, if_neg hn]
        rfl
      · have hn : ¬ h.skipRef.Passes := hp
        rw [if_neg hp, pmemWrite_uartTx, if_neg hn]
        rfl

/-- What the calls for a store in an evaluation at time `t` leave in `last_simtime`, and what they
print. -/
def filtered (store : Option Word) (calls : ℕ) (t : ℤ) (p : ℤ × List (BitVec 8)) :
    ℤ × List (BitVec 8) :=
  match store with
  | none => p
  | some data => if calls ≠ 0 ∧ 3 ≤ t - p.1 then (t, p.2 ++ [uartByte data]) else p

/-- The calls in an evaluation change nothing else that the filter depends on. -/
theorem writes_eq (store : Option Word) (calls : ℕ) (h : Host) :
    (writes store calls h).simTime = h.simTime ∧ (writes store calls h).curTrace = h.curTrace ∧
      ((writes store calls h).lastSimtime, (writes store calls h).uart) =
        filtered store calls h.simTime (h.lastSimtime, h.uart) := by
  cases store with
  | none => exact ⟨rfl, rfl, rfl⟩
  | some data =>
    rw [writes_some]
    rcases eq_or_ne calls 0 with h0 | h0
    · simp [filtered, h0]
    · by_cases hp : h.Passes
      · have hp' : 3 ≤ h.simTime - h.lastSimtime := hp
        simp [filtered, h0, hp, hp', skipRef]
      · have hp' : ¬ 3 ≤ h.simTime - h.lastSimtime := hp
        simp [filtered, h0, hp, hp', skipRef]

/-- An evaluation: a wave file that is full is followed by a new one, in which the time starts at
0. -/
theorem evalAndWaveTrace_writes {h : Host} {t : ℤ} (hc : h.curTrace = true)
    (ht : t = if maxWaveSize ≤ h.simTime then 0 else h.simTime) (store : Option Word) (calls : ℕ) :
    (h.evalAndWaveTrace (writes store calls)).curTrace = true ∧
      (h.evalAndWaveTrace (writes store calls)).simTime = t + 1 ∧
      ((h.evalAndWaveTrace (writes store calls)).lastSimtime,
        (h.evalAndWaveTrace (writes store calls)).uart) =
          filtered store calls t (h.lastSimtime, h.uart) := by
  by_cases hw : maxWaveSize ≤ h.simTime
  · obtain ⟨h1, h2, h3⟩ := writes_eq store calls h.switchWaveTrace
    rw [if_pos hw] at ht
    rw [evalAndWaveTrace, decide_eq_true hw, Bool.or_true, ht]
    exact ⟨h2, by rw [if_pos rfl]; exact congrArg (· + 1) h1, h3⟩
  · obtain ⟨h1, h2, h3⟩ := writes_eq store calls h
    rw [if_neg hw] at ht
    rw [evalAndWaveTrace, decide_eq_false hw, hc, ht]
    exact ⟨h2.trans hc, congrArg (· + 1) h1, h3⟩

/-! ## The clock cycles of a run -/

/-- The number of a clock cycle in its wave file: a file holds the evaluations of 500000 cycles. -/
def slot (n : ℕ) : ℕ := n % 500000

theorem slot_lt (n : ℕ) : slot n < 500000 := Nat.mod_lt _ (by decide)

/-- The time of the evaluation with `clk` = 1 in cycle `n`. -/
def highTime (n : ℕ) : ℤ := 2 * slot n + 1

/-- The time of the evaluation with `clk` = 0 that ends cycle `n`: after the last cycle of a wave
file it is the first evaluation of the next file. -/
def lowTime (n : ℕ) : ℤ := if slot n = 499999 then 0 else 2 * slot n + 2

theorem highTime_succ (n : ℕ) : highTime (n + 1) = lowTime n + 1 := by
  simp only [highTime, lowTime, slot]
  split_ifs with h <;> omega

section Cycle

variable (pmem : ByteMem 32) (c : ℕ → UartCycle)

theorem atCycle_succ (n : ℕ) :
    atCycle pmem c (n + 1) =
      ((atCycle pmem c n).evalAndWaveTrace (writes (c n).store ((c n).again + 1))).evalAndWaveTrace
        (writes (c n).store (c n).low) := rfl

/-- What the filter does in a clock cycle that starts at its time. -/
theorem atCycle_step {n : ℕ} (hc : (atCycle pmem c n).curTrace = true)
    (ht : (atCycle pmem c n).simTime = highTime n) :
    (atCycle pmem c (n + 1)).curTrace = true ∧
      (atCycle pmem c (n + 1)).simTime = highTime (n + 1) ∧
      ((atCycle pmem c (n + 1)).lastSimtime, (atCycle pmem c (n + 1)).uart) =
        filtered (c n).store (c n).low (lowTime n)
          (filtered (c n).store ((c n).again + 1) (highTime n)
            ((atCycle pmem c n).lastSimtime, (atCycle pmem c n).uart)) := by
  have hslot := slot_lt n
  have hhigh : highTime n = if maxWaveSize ≤ (atCycle pmem c n).simTime then 0 else
      (atCycle pmem c n).simTime := by
    rw [if_neg, ht]
    rw [ht, highTime, maxWaveSize]
    omega
  obtain ⟨h1, h2, h3⟩ := evalAndWaveTrace_writes hc hhigh (c n).store ((c n).again + 1)
  have hlow : lowTime n = if maxWaveSize ≤ highTime n + 1 then 0 else highTime n + 1 := by
    simp only [lowTime, highTime, maxWaveSize]
    split_ifs <;> omega
  rw [← h2] at hlow
  obtain ⟨h4, h5, h6⟩ := evalAndWaveTrace_writes h1 hlow (c n).store (c n).low
  rw [atCycle_succ, highTime_succ, ← h3]
  exact ⟨h4, h5, h6⟩

/-- The time at the start of a clock cycle. -/
theorem atCycle_time (n : ℕ) : (atCycle pmem c n).curTrace = true ∧
    (atCycle pmem c n).simTime = highTime n := by
  induction n with
  | zero => exact ⟨rfl, rfl⟩
  | succ n ih =>
    obtain ⟨h1, h2, -⟩ := atCycle_step pmem c ih.1 ih.2
    exact ⟨h1, h2⟩

end Cycle

/-! ## Which stores are printed -/

variable (c : ℕ → UartCycle)

/-- The last cycle before cycle `n` with a store. -/
def lastStore : ℕ → Option ℕ
  | 0 => none
  | n + 1 => if (c n).store.isSome then some n else lastStore n

/-- A store in cycle `n` passes the filter at its first call: it is not in the first cycle of the
run, and not in the cycle after another store, and no new wave file has been started since the last
store, unless the store is as far into its file. -/
def passesHigh (n : ℕ) : Bool :=
  match lastStore c n with
  | none => decide (1 ≤ slot n)
  | some k => decide (slot k + 2 ≤ slot n)

/-- A store in cycle `n` passes the filter in the second evaluation of its cycle, if it is called
for there: it is in the cycle after another store that has passed at its first call. -/
def passesLow (n : ℕ) : Bool :=
  match lastStore c n with
  | none => false
  | some k => passesHigh c k && decide (slot n = slot k + 1) && decide (slot n < 499999) &&
      (c n).low != 0

/-- The time of the last store before cycle `n`, when all stores pass. -/
def lastTime (n : ℕ) : ℤ :=
  match lastStore c n with
  | none => 0
  | some k => if passesHigh c k then highTime k else lowTime k

/-- The store in cycle `n`, if there is one, passes the filter. -/
def StorePasses (n : ℕ) : Prop :=
  (c n).store.isSome = true → (passesHigh c n || passesLow c n) = true

variable {c} {n : ℕ}

/-- The last store is one of the earlier ones. -/
theorem lastStore_lt {k : ℕ} (h : lastStore c n = some k) : k < n ∧ (c k).store.isSome = true := by
  induction n with
  | zero => contradiction
  | succ n ih =>
    rw [lastStore] at h
    split_ifs at h with hs
    · obtain rfl := Option.some.inj h
      exact ⟨Nat.lt_succ_self _, hs⟩
    · exact ⟨(ih h).1.trans n.lt_succ_self, (ih h).2⟩

/-- A store that passes in the second evaluation is not in the last cycle of a wave file. -/
theorem slot_lt_of_passesLow (h : passesLow c n = true) : slot n < 499999 := by
  rw [passesLow] at h
  split at h
  · contradiction
  · simp only [Bool.and_eq_true, decide_eq_true_eq] at h
    exact h.1.2

/-- The filter's test at the first call of a store. -/
theorem passesHigh_iff (h : ∀ k < n, StorePasses c k) :
    passesHigh c n = true ↔ 3 ≤ highTime n - lastTime c n := by
  rw [passesHigh, lastTime]
  cases hl : lastStore c n with
  | none => simp only [decide_eq_true_eq, highTime]; omega
  | some k =>
    obtain ⟨hk, hs⟩ := lastStore_lt hl
    simp only [decide_eq_true_eq]
    split_ifs with he
    · simp only [highTime]; omega
    · -- The last store has passed in the second evaluation of its cycle.
      have hlow := slot_lt_of_passesLow (by simpa [he] using h k hk hs)
      have hne : slot k ≠ 499999 := by omega
      simp only [highTime, lowTime, hne, if_false]
      omega

/-- The filter's test in the second evaluation, for a store that was dropped in the first. -/
theorem passesLow_iff (h : ∀ k < n, StorePasses c k) (hn : passesHigh c n = false) :
    passesLow c n = true ↔ (c n).low ≠ 0 ∧ 3 ≤ lowTime n - lastTime c n := by
  rw [passesLow, lastTime]
  rw [passesHigh] at hn
  cases hl : lastStore c n with
  | none =>
    rw [hl] at hn
    simp only [decide_eq_false_iff_not, not_le] at hn
    -- No store has come before: `last_simtime` is as it was at the start.
    have hne : slot n ≠ 499999 := by omega
    simp only [lowTime, hne, if_false]
    constructor
    · intro hf; contradiction
    · rintro ⟨-, ht⟩; omega
  | some k =>
    rw [hl] at hn
    obtain ⟨hk, hs⟩ := lastStore_lt hl
    simp only [decide_eq_false_iff_not] at hn
    simp only [Bool.and_eq_true, decide_eq_true_eq, bne_iff_ne]
    have hslot := slot_lt n
    cases he : passesHigh c k
    · -- The last store has passed in the second evaluation of its cycle, too.
      have hlow := slot_lt_of_passesLow (by simpa [he] using h k hk hs)
      have hne : slot k ≠ 499999 := by omega
      simp only [Bool.false_eq_true, false_and, if_false, lowTime, hne, false_iff]
      rintro ⟨-, ht⟩
      split_ifs at ht <;> omega
    · simp only [true_and, if_true, highTime, lowTime]
      split_ifs <;> omega

/-- The bytes of the stores before cycle `n`, in order. -/
def storedBytes (c : ℕ → UartCycle) (n : ℕ) : List (BitVec 8) :=
  Clocked.log (fun k => (c k).store.map uartByte) n

/-- The calls in the second evaluation of a cycle are dropped when one in the first was let
through. -/
theorem lowTime_sub_highTime_lt (n : ℕ) : lowTime n - highTime n < 3 := by
  simp only [lowTime, highTime]
  split_ifs <;> omega

/-- A clock cycle in which the store passes, or in which there is none. -/
theorem filtered_of_storePasses (h : ∀ k < n, StorePasses c k) (hn : StorePasses c n) :
    filtered (c n).store (c n).low (lowTime n)
        (filtered (c n).store ((c n).again + 1) (highTime n) (lastTime c n, storedBytes c n)) =
      (lastTime c (n + 1), storedBytes c (n + 1)) := by
  rw [storedBytes, storedBytes, Clocked.log_succ]
  cases hs : (c n).store with
  | none => simp [filtered, lastTime, lastStore, hs]
  | some data =>
    have hlast : lastTime c (n + 1) = if passesHigh c n then highTime n else lowTime n := by
      simp [lastTime, lastStore, hs]
    rw [hlast]
    cases hp : passesHigh c n
    · have hl : passesLow c n = true := by simpa [StorePasses, hs, hp] using hn
      have ht : ¬ 3 ≤ highTime n - lastTime c n := by simp [← passesHigh_iff h, hp]
      have ht' := (passesLow_iff h hp).mp hl
      simp [filtered, ht, ht']
    · have ht := (passesHigh_iff h).mp hp
      have hd := lowTime_sub_highTime_lt n
      have hn' : ¬ 3 ≤ lowTime n - highTime n := by omega
      simp [filtered, ht, hn']

/-- A clock cycle in which the store does not pass prints nothing. -/
theorem filtered_of_not_storePasses (h : ∀ k < n, StorePasses c k) (hn : ¬ StorePasses c n) :
    (c n).store.isSome = true ∧
      filtered (c n).store (c n).low (lowTime n)
        (filtered (c n).store ((c n).again + 1) (highTime n) (lastTime c n, storedBytes c n)) =
      (lastTime c n, storedBytes c n) := by
  simp only [StorePasses, Classical.not_imp, Bool.not_eq_true, Bool.or_eq_false_iff] at hn
  obtain ⟨hs, hp, hl⟩ := hn
  refine ⟨hs, ?_⟩
  obtain ⟨data, hs⟩ := Option.isSome_iff_exists.mp hs
  have ht : ¬ 3 ≤ highTime n - lastTime c n := by simp [← passesHigh_iff h, hp]
  have ht' : ¬ ((c n).low ≠ 0 ∧ 3 ≤ lowTime n - lastTime c n) := by
    simp [← passesLow_iff h hp, hl]
  simp only [filtered, hs, ht, and_false, if_false]
  rw [if_neg ht']

variable (pmem : ByteMem 32)

/-- While every store passes, the bytes printed are those of the stores. -/
theorem atCycle_eq (h : ∀ k < n, StorePasses c k) :
    ((atCycle pmem c n).lastSimtime, (atCycle pmem c n).uart) =
      (lastTime c n, storedBytes c n) := by
  induction n with
  | zero => rfl
  | succ n ih =>
    have hlt : ∀ k < n, StorePasses c k := fun k hk => h k (hk.trans n.lt_succ_self)
    obtain ⟨hc, ht⟩ := atCycle_time pmem c n
    rw [(atCycle_step pmem c hc ht).2.2, ih hlt]
    exact filtered_of_storePasses hlt (h n n.lt_succ_self)

/-- For every sequence of stores to `UART_TX`, with any number of calls in the two evaluations of
their cycles: each of them prints its byte once and in order if and only if each of them passes the
filter. -/
theorem uart_once_iff (c : ℕ → UartCycle) :
    (∀ n, (atCycle pmem c n).uart = storedBytes c n) ↔ ∀ n, StorePasses c n := by
  constructor
  · intro h n
    induction n using Nat.strong_induction_on with
    | _ n ih =>
      by_contra hn
      obtain ⟨hs, hf⟩ := filtered_of_not_storePasses ih hn
      obtain ⟨hc, ht⟩ := atCycle_time pmem c n
      have hstep := (atCycle_step pmem c hc ht).2.2
      rw [atCycle_eq pmem ih, hf] at hstep
      have hu := congrArg Prod.snd hstep
      -- The byte of the store in cycle `n` is missing.
      rw [h (n + 1), storedBytes, Clocked.log_succ, ← storedBytes] at hu
      obtain ⟨data, hs⟩ := Option.isSome_iff_exists.mp hs
      simp [hs] at hu
  · intro h n
    exact congrArg Prod.snd (atCycle_eq pmem fun k _ => h k)

/-- Two stores in consecutive clock cycles. -/
def twoStores (n : ℕ) : UartCycle :=
  ⟨if n = 20 then some 0x41#32 else if n = 21 then some 0x42#32 else none, 0, 0⟩

/-- The second of two stores in consecutive cycles is not printed. -/
theorem twoStores_lost : ¬ ∀ n, (atCycle (fun _ => 0#8) twoStores n).uart = storedBytes twoStores n := by
  intro h
  have h22 := h 22
  have hu : (atCycle (fun _ => 0#8) twoStores 22).uart = [0x41#8] := by decide +kernel
  have hb : storedBytes twoStores 22 = [0x41#8, 0x42#8] := by decide +kernel
  rw [hu, hb] at h22
  contradiction

end Host

end RV32Pipeline
