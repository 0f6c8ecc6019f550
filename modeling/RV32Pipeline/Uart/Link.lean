import Mathlib.Tactic.IntervalCases
import RV32Pipeline.Uart.Fifo

/-!
# The serial link

`uart_rx` on the line of `uart_tx_fifo`, as `npc` connects them. Neither module can see the counters
of the other, so the argument follows both from the last edge at which a byte was loaded: `age` says
how many cycles ago that was, and `TxAt` what the transmitter is doing then. The receiver notices a
frame three cycles after the load, and is done with it two cycles after the next one can be loaded,
so it has an age of its own (`rxAge`, `RxAt`). One step lemma for each side keeps both in step, and
`uart_roundTrip` reads the windows of `uart_rx_done` off the ages.
-/

namespace RV32Pipeline

/-! ## The counter of a frame -/

namespace BitCounter

/-- The counter `n` cycles after it has started. -/
def after (n : ℕ) : BitCounter := ⟨BitVec.ofNat 16 (n % 10), BitVec.ofNat 4 (n / 10)⟩

theorem after_zero : after 0 = zero := rfl

/-- A counter that runs counts the cycles. -/
theorem next_after (n : ℕ) : (after n).next true = after (n + 1) := by
  unfold next after
  have hclk : BitVec.ofNat 16 (n % 10) < bpsCnt - 1#16 ↔ n % 10 < 9 := by
    rw [BitVec.lt_def, BitVec.toNat_ofNat, Nat.mod_eq_of_lt (by omega)]
    rfl
  by_cases h : n % 10 < 9
  · have hm : (n + 1) % 10 = n % 10 + 1 := by omega
    have hd : (n + 1) / 10 = n / 10 := by omega
    rw [if_pos rfl, if_pos (hclk.mpr h), hm, hd, BitVec.ofNat_add]
  · have hm : (n + 1) % 10 = 0 := by omega
    have hd : (n + 1) / 10 = n / 10 + 1 := by omega
    rw [if_pos rfl, if_neg (mt hclk.mp h), hm, hd, BitVec.ofNat_add]

/-- The bit of a frame after `n` cycles. -/
theorem bitCnt_after {n : ℕ} (hn : n < 160) (k : ℕ) (hk : k < 16) :
    ((after n).bitCnt == BitVec.ofNat 4 k) = decide (n / 10 = k) := by
  have hiff : (after n).bitCnt = BitVec.ofNat 4 k ↔ n / 10 = k := by
    unfold after
    rw [← BitVec.toNat_inj, BitVec.toNat_ofNat, BitVec.toNat_ofNat]
    omega
  rw [Bool.eq_iff_iff, beq_iff_eq, decide_eq_true_eq, hiff]

/-- The clock of a bit after `n` cycles is the one in the middle. -/
theorem clkCnt_after (n : ℕ) : ((after n).clkCnt == bpsCnt / 2#16) = decide (n % 10 = 5) := by
  have hiff : (after n).clkCnt = bpsCnt / 2#16 ↔ n % 10 = 5 := by
    show BitVec.ofNat 16 (n % 10) = 5#16 ↔ n % 10 = 5
    rw [← BitVec.toNat_inj, BitVec.toNat_ofNat, BitVec.toNat_ofNat]
    omega
  rw [Bool.eq_iff_iff, beq_iff_eq, decide_eq_true_eq, hiff]

/-- A frame ends after 95 cycles. -/
theorem lastClk_after {n : ℕ} (hn : n < 160) : (after n).lastClk = decide (n = 95) := by
  unfold lastClk
  rw [bitCnt_after hn 9 (by decide), clkCnt_after, Bool.eq_iff_iff, Bool.and_eq_true,
    decide_eq_true_eq, decide_eq_true_eq, decide_eq_true_eq]
  omega

theorem lastClk_zero : zero.lastClk = false := rfl

end BitCounter

/-! ## The transmitter -/

/-- The line `a` cycles after a byte was loaded. -/
def lineAt (b : BitVec 8) (a : ℕ) : Bool :=
  if 2 ≤ a ∧ a ≤ 97 then Serializer.txdOf b (BitVec.ofNat 4 ((a - 2) / 10)) else true

/-- The transmitter `a` cycles after the byte `b` was loaded. -/
structure TxAt (b : BitVec 8) (a : ℕ) (u : UartTxFifo) : Prop where
  pos : 1 ≤ a
  flag : u.txFlag = decide (a ≤ 96)
  data : a ≤ 96 → u.uartDataReg = b
  cnt : u.cnt = if a ≤ 97 then BitCounter.after (a - 1) else BitCounter.zero
  txd : u.uartTxd = lineAt b a
  -- The next byte cannot be taken while the flag is up.
  en : u.uartTxEn = true → 98 ≤ a
  d0 : u.uartTxEnD0 = true → 99 ≤ a

namespace TxAt

variable {b : BitVec 8} {a : ℕ} {u : UartTxFifo} (h : TxAt b a u) (hs : Handshake u) (i : UartTxIn)

/-- The line is high before and after a frame. -/
theorem lineAt_of_lt (b : BitVec 8) {a : ℕ} (ha : a < 2) : lineAt b a = true := if_neg (by omega)

/-- The line is high after the data bits. -/
theorem lineAt_of_le (b : BitVec 8) {a : ℕ} (ha : 92 ≤ a) : lineAt b a = true := by
  unfold lineAt
  split_ifs with h
  · have hd : (a - 2) / 10 = 9 := by omega
    rw [hd]
    rfl
  · rfl

include h

/-- The flag falls in the middle of the stop bit. -/
theorem lastClk : u.cnt.lastClk = decide (a = 96) := by
  have hpos := h.pos
  rw [h.cnt]
  split_ifs with ha
  · rw [BitCounter.lastClk_after (by omega)]
    exact decide_eq_decide.mpr (by omega)
  · rw [BitCounter.lastClk_zero]
    exact (decide_eq_false (by omega)).symm

/-- Without a load the transmitter goes on. -/
theorem next (hl : u.posUartEnTxd = false) : TxAt b (a + 1) (u.next i) where
  pos := Nat.le_add_left 1 a
  flag := by
    show (if u.posUartEnTxd then true else if u.cnt.lastClk then false else u.txFlag) = _
    rw [hl, h.lastClk, h.flag, if_neg Bool.false_ne_true]
    by_cases ha : a = 96
    · simp [ha]
    · rw [decide_eq_false ha, if_neg Bool.false_ne_true]
      exact decide_eq_decide.mpr (by omega)
  data ha := by
    show (if u.posUartEnTxd then u.uartTxData else if u.cnt.lastClk then 0#8 else u.uartDataReg) = _
    rw [hl, h.lastClk, decide_eq_false (by omega : a ≠ 96), if_neg Bool.false_ne_true,
      if_neg Bool.false_ne_true]
    exact h.data (by omega)
  cnt := by
    have hpos := h.pos
    show u.cnt.next u.txFlag = _
    rw [h.flag, h.cnt]
    by_cases ha : a ≤ 96
    · rw [decide_eq_true ha, if_pos (by omega), if_pos (by omega), BitCounter.next_after]
      congr 1
      omega
    · rw [decide_eq_false ha, if_neg (by omega : ¬ a + 1 ≤ 97)]
      rfl
  txd := by
    have hpos := h.pos
    show (if u.txFlag then Serializer.txdOf u.uartDataReg u.cnt.bitCnt else true) = _
    unfold lineAt
    rw [h.flag, h.cnt]
    by_cases ha : a ≤ 96
    · rw [decide_eq_true ha, if_pos rfl, if_pos (by omega), if_pos (by omega), h.data ha,
        show a + 1 - 2 = a - 1 by omega]
      rfl
    · rw [decide_eq_false ha, if_neg Bool.false_ne_true, if_neg (by omega)]
  en ht := by
    have hf := (Handshake.not_busy_of_takes ht).1
    rw [h.flag, decide_eq_false_iff_not] at hf
    omega
  d0 he := by
    have := h.en he
    omega

include hs

/-- A load starts a frame. -/
theorem next_of_posUartEnTxd (hl : u.posUartEnTxd = true) :
    98 < a ∧ TxAt u.uartTxData 1 (u.next i) := by
  have hd : u.uartTxEnD0 = true := by rwa [hs.posUartEnTxd] at hl
  have ha := h.d0 hd
  have hf : u.txFlag = false := by rw [h.flag, decide_eq_false (by omega)]
  -- A byte that is on its way keeps the next one in the FIFO.
  have hnt : u.takes = false := by
    by_contra ht
    rw [Bool.not_eq_false] at ht
    rw [(Handshake.not_busy_of_takes ht).2.2.1] at hd
    contradiction
  refine ⟨ha, le_rfl, ?_, fun _ => ?_, ?_, ?_, fun ht => ?_, fun he => ?_⟩
  · show (if u.posUartEnTxd then true else _) = _
    rw [hl]
    rfl
  · show (if u.posUartEnTxd then u.uartTxData else _) = _
    rw [hl]
    rfl
  · show u.cnt.next u.txFlag = _
    rw [hf]
    rfl
  · show (if u.txFlag then _ else true) = _
    rw [hf]
    rfl
  · have ht' : u.takes = true := ht
    rw [hnt] at ht'
    contradiction
  · have he' : u.uartTxEn = true := he
    rw [(hs.d0 hd).1] at he'
    contradiction

end TxAt

/-! ## The receiver -/

/-- The lowest `n` bits of a byte. -/
def lowBits (n : ℕ) (b : BitVec 8) : BitVec 8 := b &&& ~~~(0xff#8 <<< n)

theorem lowBits_zero (b : BitVec 8) : lowBits 0 b = 0#8 := by
  revert b
  decide +kernel

theorem lowBits_eight (b : BitVec 8) : lowBits 8 b = b := by
  revert b
  decide +kernel

/-- A sampled bit is put on top of those before it. -/
theorem setBit_lowBits (b : BitVec 8) {n : ℕ} (hn : n < 8) :
    UartRx.setBit (lowBits n b) n (b.getLsbD n) = lowBits (n + 1) b := by
  have h : ∀ n < 8, ∀ b : BitVec 8,
      UartRx.setBit (lowBits n b) n (b.getLsbD n) = lowBits (n + 1) b := by
    decide +kernel
  exact h n hn b

/-- The bit `k` of a frame, from the second to the ninth, is a data bit. -/
theorem txdOf_data (b : BitVec 8) {k : ℕ} (hk : k < 8) :
    Serializer.txdOf b (BitVec.ofNat 4 (k + 1)) = b.getLsbD k := by
  interval_cases k <;> rfl

/-- The receiver samples the data bits. -/
theorem sample_data (v : Bool) (x : BitVec 8) {k : ℕ} (hk : k < 8) :
    UartRx.sample v x (BitVec.ofNat 4 (k + 1)) = UartRx.setBit x k v := by
  interval_cases k <;> rfl

/-- The number of data bits that have been sampled `q` cycles after a load. -/
def bitsAt (q : ℕ) : ℕ := min 8 ((q - 10) / 10)

/-- The receiver `q` cycles after the byte `c` was loaded. -/
structure RxAt (c : BitVec 8) (q : ℕ) (r : UartRx) : Prop where
  pos : 3 ≤ q
  flag : r.rxFlag = decide (4 ≤ q ∧ q ≤ 99)
  cnt : r.cnt = if 4 ≤ q ∧ q ≤ 100 then BitCounter.after (q - 4) else BitCounter.zero
  dataReg : r.uartRxDataReg = if 4 ≤ q ∧ q ≤ 100 then lowBits (bitsAt q) c else 0#8
  done : r.uartRxDone = decide (95 ≤ q ∧ q ≤ 101)
  data : 95 ≤ q → q ≤ 101 → r.uartRxData = c

namespace RxAt

variable {c : BitVec 8} {q : ℕ} {r : UartRx} (h : RxAt c q r) {v : Bool}

/-- The register `uart_rx_data_reg` after an edge within a frame. -/
theorem sample_next (hq : 4 ≤ q) (hq' : q ≤ 99)
    (hv : q ≤ 98 → v = lineAt c q) :
    (if (BitCounter.after (q - 4)).clkCnt == bpsCnt / 2#16 then
        UartRx.sample v (lowBits (bitsAt q) c) (BitCounter.after (q - 4)).bitCnt
      else lowBits (bitsAt q) c) = lowBits (bitsAt (q + 1)) c := by
  rw [BitCounter.clkCnt_after]
  by_cases hm : (q - 4) % 10 = 5
  · rw [decide_eq_true hm, if_pos rfl]
    show UartRx.sample v _ (BitVec.ofNat 4 ((q - 4) / 10)) = _
    -- The start bit, a data bit, or the stop bit is on the line.
    obtain hk | ⟨k, hk, hk8⟩ | hk : (q - 4) / 10 = 0 ∨
        (∃ k, (q - 4) / 10 = k + 1 ∧ k < 8) ∨ (q - 4) / 10 = 9 := by
      by_cases h0 : (q - 4) / 10 = 0
      · exact .inl h0
      · by_cases h9 : (q - 4) / 10 = 9
        · exact .inr (.inr h9)
        · exact .inr (.inl ⟨(q - 4) / 10 - 1, by omega, by omega⟩)
    · have hb : bitsAt q = bitsAt (q + 1) := by
        unfold bitsAt
        omega
      rw [hk, hb]
      rfl
    · have hb : bitsAt q = k := by
        unfold bitsAt
        omega
      have hb' : bitsAt (q + 1) = k + 1 := by
        unfold bitsAt
        omega
      have hline : v = c.getLsbD k := by
        rw [hv (by omega), lineAt, if_pos (by omega), show (q - 2) / 10 = k + 1 by omega,
          txdOf_data c hk8]
      rw [hk, hb, hb', hline, sample_data _ _ hk8, setBit_lowBits c hk8]
    · have hb : bitsAt q = bitsAt (q + 1) := by
        unfold bitsAt
        omega
      rw [hk, hb]
      rfl
  · have hb : bitsAt q = bitsAt (q + 1) := by
      unfold bitsAt
      omega
    rw [decide_eq_false hm, if_neg Bool.false_ne_true, hb]

include h

/-- The receiver gives up its flag at the end of a frame. -/
theorem lastClk : r.cnt.lastClk = decide (q = 99) := by
  rw [h.cnt]
  split_ifs with hq
  · rw [BitCounter.lastClk_after (by omega)]
    exact decide_eq_decide.mpr (by omega)
  · rw [BitCounter.lastClk_zero]
    exact (decide_eq_false (by omega)).symm

/-- The stop bit is the one that raises `uart_rx_done`. -/
theorem bitCnt_nine : (r.cnt.bitCnt == 9#4) = decide (94 ≤ q ∧ q ≤ 100) := by
  rw [h.cnt]
  split_ifs with hq
  · rw [BitCounter.bitCnt_after (by omega) 9 (by decide)]
    exact decide_eq_decide.mpr (by omega)
  · exact (decide_eq_false (by omega)).symm

/-- The receiver goes on: it sees a falling edge when a frame starts, and none after the data. -/
theorem next (hneg3 : q = 3 → r.negUartRxData = true) (hneg : 99 ≤ q → r.negUartRxData = false)
    (hv : 4 ≤ q → q ≤ 98 → v = lineAt c q) : RxAt c (q + 1) (r.next v) where
  pos := Nat.le_succ_of_le h.pos
  flag := by
    have hpos := h.pos
    show (if r.negUartRxData then true else if r.cnt.lastClk then false else r.rxFlag) = _
    rw [h.lastClk, h.flag]
    by_cases h3 : q = 3
    · rw [hneg3 h3, h3]
      rfl
    · by_cases h99 : 99 ≤ q
      · rw [hneg h99, if_neg Bool.false_ne_true,
          decide_eq_false (by omega : ¬ (4 ≤ q + 1 ∧ q + 1 ≤ 99))]
        by_cases hq : q = 99
        · rw [decide_eq_true hq, if_pos rfl]
        · rw [decide_eq_false hq, if_neg Bool.false_ne_true, decide_eq_false (by omega)]
      · -- A falling edge within a frame changes nothing.
        rw [decide_eq_false (by omega : q ≠ 99), if_neg Bool.false_ne_true,
          decide_eq_true (by omega : 4 ≤ q ∧ q ≤ 99),
          decide_eq_true (by omega : 4 ≤ q + 1 ∧ q + 1 ≤ 99), ite_self]
  cnt := by
    have hpos := h.pos
    show r.cnt.next r.rxFlag = _
    rw [h.flag, h.cnt]
    by_cases hq : 4 ≤ q ∧ q ≤ 99
    · rw [decide_eq_true hq, if_pos (by omega), if_pos (by omega), BitCounter.next_after]
      congr 1
      omega
    · rw [decide_eq_false hq]
      show BitCounter.zero = _
      split_ifs with hq'
      · rw [show q + 1 - 4 = 0 by omega, BitCounter.after_zero]
      · rfl
  dataReg := by
    have hpos := h.pos
    show (if r.rxFlag then (if r.cnt.clkCnt == bpsCnt / 2#16 then
      UartRx.sample v r.uartRxDataReg r.cnt.bitCnt else r.uartRxDataReg) else 0#8) = _
    rw [h.flag, h.cnt, h.dataReg]
    by_cases hq : 4 ≤ q ∧ q ≤ 99
    · have hq' : 4 ≤ q ∧ q ≤ 100 := ⟨hq.1, by omega⟩
      rw [decide_eq_true hq, if_pos rfl, if_pos hq', if_pos hq',
        if_pos (by omega : 4 ≤ q + 1 ∧ q + 1 ≤ 100)]
      exact sample_next hq.1 hq.2 (hv hq.1)
    · rw [decide_eq_false hq, if_neg Bool.false_ne_true]
      split_ifs with hq'
      · have hb : bitsAt (q + 1) = 0 := by
          unfold bitsAt
          omega
        rw [hb, lowBits_zero]
      · rfl
  done := by
    show (r.cnt.bitCnt == 9#4) = _
    rw [h.bitCnt_nine]
    exact decide_eq_decide.mpr (by omega)
  data hq hq' := by
    have hb : bitsAt q = 8 := by
      unfold bitsAt
      omega
    show (if r.cnt.bitCnt == 9#4 then r.uartRxDataReg else 0#8) = _
    rw [h.bitCnt_nine, decide_eq_true (by omega), if_pos rfl, h.dataReg, if_pos (by omega), hb,
      lowBits_eight]

/-- A receiver that has finished waits for the next frame. -/
theorem restart (hq : 101 ≤ q) (hneg : r.negUartRxData = false) (c' : BitVec 8) :
    RxAt c' 3 (r.next v) := by
  have hf : r.rxFlag = false := by rw [h.flag, decide_eq_false (by omega)]
  have hc : r.cnt = BitCounter.zero := by rw [h.cnt, if_neg (by omega)]
  refine ⟨le_rfl, ?_, ?_, ?_, ?_, fun hq => absurd hq (by decide)⟩
  · show (if r.negUartRxData then true else if r.cnt.lastClk then false else r.rxFlag) = _
    rw [hneg, hc, hf]
    rfl
  · show r.cnt.next r.rxFlag = _
    rw [hf]
    rfl
  · show (if r.rxFlag then _ else 0#8) = _
    rw [hf]
    rfl
  · show (r.cnt.bitCnt == 9#4) = _
    rw [hc]
    rfl

end RxAt

/-! ## Both sides -/

section Run

variable (i : ℕ → UartTxIn)

/-- The registers of `uart_rx` on the line of `uart_tx_fifo`, in each cycle from reset. -/
def uartRx : ℕ → UartRx := Clocked.run UartRx.next UartRx.reset fun t => (uartTx i t).uartTxd

theorem uartRx_succ (t : ℕ) : uartRx i (t + 1) = (uartRx i t).next (uartTx i t).uartTxd := rfl

/-- The number of cycles since a byte was loaded. Before the first one, the transmitter is as it is
at the end of a frame. -/
def txAge : ℕ → ℕ
  | 0 => 98
  | t + 1 => if (uartTx i t).posUartEnTxd then 1 else txAge t + 1

/-- The byte that was loaded last. -/
def txByte : ℕ → BitVec 8
  | 0 => 0#8
  | t + 1 => if (uartTx i t).posUartEnTxd then (uartTx i t).uartTxData else txByte t

/-- The number of cycles since the byte was loaded that the receiver is at. -/
def rxAge : ℕ → ℕ
  | 0 => 102
  | t + 1 => if txAge i t = 2 then 3 else rxAge t + 1

/-- The byte that the receiver is at. -/
def rxByte : ℕ → BitVec 8
  | 0 => 0#8
  | t + 1 => if txAge i t = 2 then txByte i t else rxByte t

/-- Transmitter and receiver are in step. -/
structure LinkInv (t : ℕ) : Prop where
  tx : TxAt (txByte i t) (txAge i t) (uartTx i t)
  rx : RxAt (rxByte i t) (rxAge i t) (uartRx i t)
  -- After reset the receiver has not seen the line yet.
  d0 : txAge i t ≠ 98 → (uartRx i t).uartRxD0 = lineAt (txByte i t) (txAge i t - 1)
  d1 : txAge i t < 98 → (uartRx i t).uartRxD1 = lineAt (txByte i t) (txAge i t - 2)
  neg : txAge i t = 98 → (uartRx i t).negUartRxData = false
  same : 3 ≤ txAge i t →
    (rxAge i t = txAge i t ∧ rxByte i t = txByte i t) ∨ (98 ≤ txAge i t ∧ 102 ≤ rxAge i t)
  before : txAge i t < 3 → 99 + txAge i t ≤ rxAge i t

namespace LinkInv

variable {i} {t : ℕ} (h : LinkInv i t)
include h

/-- The line falls when a frame starts, and does not fall after the data or between frames. -/
theorem negUartRxData (ha : txAge i t ≤ 3 ∨ 98 ≤ txAge i t) :
    (uartRx i t).negUartRxData = decide (txAge i t = 3) := by
  have hpos := h.tx.pos
  by_cases h98 : txAge i t = 98
  · rw [h.neg h98, h98]
    rfl
  · have hd0 := h.d0 h98
    unfold UartRx.negUartRxData
    by_cases hlt : 98 < txAge i t
    · rw [hd0, TxAt.lineAt_of_le _ (by omega), Bool.not_true, Bool.and_false]
      exact (decide_eq_false (by omega)).symm
    · have hd1 := h.d1 (by omega)
      rw [hd1, TxAt.lineAt_of_lt _ (by omega : txAge i t - 2 < 2), Bool.true_and, hd0]
      by_cases h3 : txAge i t = 3
      · rw [h3]
        rfl
      · rw [TxAt.lineAt_of_lt _ (by omega : txAge i t - 1 < 2), decide_eq_false h3]
        rfl

/-- The receiver after an edge. -/
theorem rx_succ : RxAt (rxByte i (t + 1)) (rxAge i (t + 1)) (uartRx i (t + 1)) := by
  have hsame := h.same
  have hbefore := h.before
  have hpos := h.tx.pos
  have hneg := h.negUartRxData
  rw [uartRx_succ]
  unfold rxByte rxAge
  by_cases h2 : txAge i t = 2
  · rw [if_pos h2, if_pos h2]
    refine h.rx.restart (by omega) ?_ _
    rw [hneg (by omega), decide_eq_false (by omega)]
  · rw [if_neg h2, if_neg h2]
    refine h.rx.next (fun hq => ?_) (fun hq => ?_) fun hq hq' => ?_
    · rw [hneg (by omega), decide_eq_true (by omega)]
    · rw [hneg (by omega), decide_eq_false (by omega)]
    · obtain ⟨hq, hb⟩ : rxAge i t = txAge i t ∧ rxByte i t = txByte i t := by
        rcases hsame (by omega) with hs | hs
        · exact hs
        · omega
      rw [hq, hb]
      exact h.tx.txd

/-- A clock edge keeps transmitter and receiver in step. -/
theorem succ : LinkInv i (t + 1) := by
  have hrx := h.rx_succ
  have hsame := h.same
  have hbefore := h.before
  have hpos := h.tx.pos
  have hd0' : (uartRx i (t + 1)).uartRxD0 = (uartTx i t).uartTxd := rfl
  have hd1' : (uartRx i (t + 1)).uartRxD1 = (uartRx i t).uartRxD0 := rfl
  have hd0 := h.d0
  rcases Bool.eq_false_or_eq_true (uartTx i t).posUartEnTxd with hl | hl
  · -- A byte is loaded: the line has been high for a while, and the receiver is about done.
    obtain ⟨ha, htx⟩ := h.tx.next_of_posUartEnTxd (handshake i t) (i t) hl
    have hage : txAge i (t + 1) = 1 := if_pos hl
    have hbyte : txByte i (t + 1) = (uartTx i t).uartTxData := if_pos hl
    have hrxAge : rxAge i (t + 1) = rxAge i t + 1 := if_neg (by omega)
    rw [← uartTx_succ] at htx
    refine ⟨by rw [hage, hbyte]; exact htx, hrx, fun _ => ?_, fun _ => ?_, fun h98 => ?_,
      fun h3 => ?_, fun _ => ?_⟩
    · rw [hd0', h.tx.txd, TxAt.lineAt_of_le _ (by omega), hage]
      rfl
    · rw [hd1', hd0 (by omega), TxAt.lineAt_of_le _ (by omega), hage]
      rfl
    · omega
    · omega
    · rw [hage, hrxAge]
      rcases hsame (by omega) with hs | hs
      · omega
      · omega
  · -- The frame goes on, and the receiver follows, from the age of 3 on.
    have htx := h.tx.next (i t) hl
    have hage : txAge i (t + 1) = txAge i t + 1 := if_neg (by rw [hl]; exact Bool.false_ne_true)
    have hbyte : txByte i (t + 1) = txByte i t := if_neg (by rw [hl]; exact Bool.false_ne_true)
    rw [← uartTx_succ] at htx
    refine ⟨by rw [hage, hbyte]; exact htx, hrx, fun _ => ?_, fun ha => ?_, fun ha => ?_,
      fun ha => ?_, fun ha => ?_⟩
    · rw [hd0', h.tx.txd, hage, hbyte]
      rfl
    · rw [hd1', hd0 (by omega), hage, hbyte]
      rfl
    · -- The last data bit is over when the age comes to 98.
      unfold UartRx.negUartRxData
      rw [hd0', h.tx.txd, TxAt.lineAt_of_le _ (by omega), Bool.not_true, Bool.and_false]
    · by_cases h2 : txAge i t = 2
      · left
        rw [hage, hbyte]
        unfold rxAge rxByte
        rw [if_pos h2, if_pos h2, h2]
        exact ⟨rfl, rfl⟩
      · rw [hage, hbyte]
        unfold rxAge rxByte
        rw [if_neg h2, if_neg h2]
        rcases hsame (by omega) with hs | hs
        · exact .inl ⟨by omega, hs.2⟩
        · exact .inr (by omega)
    · have h2 : txAge i t ≠ 2 := by omega
      have hrxAge : rxAge i (t + 1) = rxAge i t + 1 := if_neg h2
      have := hbefore (by omega)
      omega

end LinkInv

/-- Transmitter and receiver are in step in every cycle. -/
theorem linkInv (t : ℕ) : LinkInv i t := by
  induction t with
  | zero =>
    constructor
    case tx =>
      exact ⟨(by decide : 1 ≤ 98), rfl, fun h => absurd h (by decide : ¬ 98 ≤ 96), rfl, rfl,
        fun h => absurd h Bool.false_ne_true, fun h => absurd h Bool.false_ne_true⟩
    case rx =>
      exact ⟨(by decide : 3 ≤ 102), rfl, rfl, rfl, rfl, fun _ h => absurd h (by decide : ¬ 102 ≤ 101)⟩
    case d0 => exact fun h => absurd rfl h
    case d1 => exact fun h => absurd h (by decide : ¬ 98 < 98)
    case neg => exact fun _ => rfl
    case same => exact fun _ => .inr ⟨(by decide : 98 ≤ 98), (by decide : 102 ≤ 102)⟩
    case before => exact fun h => absurd h (by decide : ¬ 98 < 3)
  | succ t ih => exact ih.succ

/-! ## The windows of `uart_rx_done` -/

variable {i}

/-- A byte is loaded when the one before has been sent. -/
theorem txAge_of_posUartEnTxd {t : ℕ} (h : (uartTx i t).posUartEnTxd = true) : 98 < txAge i t :=
  ((linkInv i t).tx.next_of_posUartEnTxd (handshake i t) (i t) h).1

theorem posUartEnTxd_of_loads {u : UartTxFifo} {b : BitVec 8} (h : u.loads = some b) :
    u.posUartEnTxd = true ∧ u.uartTxData = b := by
  unfold UartTxFifo.loads at h
  split_ifs at h with hp
  exact ⟨hp, Option.some.inj h⟩

/-- The age of the transmitter after a load. -/
theorem txAge_of_loads {n : ℕ} {b : BitVec 8} (h : (uartTx i n).loads = some b) {k : ℕ}
    (hk : k < 99) : txAge i (n + 1 + k) = k + 1 ∧ txByte i (n + 1 + k) = b := by
  obtain ⟨hp, hb⟩ := posUartEnTxd_of_loads h
  induction k with
  | zero => exact ⟨if_pos hp, (if_pos hp).trans hb⟩
  | succ k ih =>
    obtain ⟨ha, hb'⟩ := ih (by omega)
    -- No other byte is loaded in between.
    have hno : (uartTx i (n + 1 + k)).posUartEnTxd ≠ true := fun hp' => by
      have := txAge_of_posUartEnTxd hp'
      omega
    exact ⟨(if_neg hno).trans (congrArg (· + 1) ha), (if_neg hno).trans hb'⟩

/-- The age of the receiver after a load, until it has finished. -/
theorem rxAge_of_loads {n : ℕ} {b : BitVec 8} (h : (uartTx i n).loads = some b) {k : ℕ}
    (hk : k ≤ 98) : rxAge i (n + 3 + k) = k + 3 ∧ rxByte i (n + 3 + k) = b := by
  induction k with
  | zero =>
    obtain ⟨ha, hb⟩ := txAge_of_loads h (by decide : 1 < 99)
    exact ⟨if_pos ha, (if_pos ha).trans hb⟩
  | succ k ih =>
    obtain ⟨hq, hb'⟩ := ih (by omega)
    have hne : txAge i (n + 3 + k) ≠ 2 := by
      rcases Nat.lt_or_ge k 97 with hlt | hge
      · have := (txAge_of_loads h (by omega : k + 2 < 99)).1
        rw [show n + 1 + (k + 2) = n + 3 + k by omega] at this
        omega
      · -- The next byte may have been loaded at the last edge.
        have h98 := (txAge_of_loads h (by decide : 98 < 99)).1
        have hlast : txAge i (n + 3 + 97) = if (uartTx i (n + 1 + 98)).posUartEnTxd then 1
            else txAge i (n + 1 + 98) + 1 := rfl
        rw [show k = 97 by omega, hlast]
        split_ifs
        · decide
        · omega
    exact ⟨(if_neg hne).trans (congrArg (· + 1) hq), (if_neg hne).trans hb'⟩

/-- The transmitter is at the byte that was loaded last, if there was one. -/
theorem loads_of_txAge (t : ℕ) : txAge i t = 98 + t ∨
    ∃ n, n + txAge i t = t ∧ (uartTx i n).loads = some (txByte i t) := by
  induction t with
  | zero => exact .inl rfl
  | succ t ih =>
    unfold txAge txByte
    split_ifs with hp
    · exact .inr ⟨t, rfl, if_pos hp⟩
    · rcases ih with ha | ⟨n, hn, hb⟩
      · exact .inl (by omega)
      · exact .inr ⟨n, by omega, hb⟩

/-- The receiver is at a byte that was loaded, if there was one. -/
theorem loads_of_rxAge (t : ℕ) : rxAge i t = 102 + t ∨
    ∃ n, n + rxAge i t = t ∧ (uartTx i n).loads = some (rxByte i t) := by
  induction t with
  | zero => exact .inl rfl
  | succ t ih =>
    unfold rxAge rxByte
    split_ifs with h2
    · rcases loads_of_txAge (i := i) t with ha | ⟨n, hn, hb⟩
      · omega
      · exact .inr ⟨n, by omega, hb⟩
    · rcases ih with ha | ⟨n, hn, hb⟩
      · exact .inl (by omega)
      · exact .inr ⟨n, by omega, hb⟩

variable (i)

/-- The byte that `uart_rx` starts to show at an edge. -/
def receives (t : ℕ) : Option (BitVec 8) :=
  if (uartRx i (t + 1)).uartRxDone && !(uartRx i t).uartRxDone then some (uartRx i (t + 1)).uartRxData
  else none

/-- What is loaded into the serializer comes out of the receiver. -/
structure RoundTrip : Prop where
  /-- A byte is loaded at the earliest 99 cycles after the one before, so no two windows touch. -/
  apart : ∀ t t', (uartTx i t).loads.isSome = true → (uartTx i t').loads.isSome = true → t < t' →
    t + 99 ≤ t'
  /-- `uart_rx_done` is high in the seven cycles from the 95th on after each load, and in no
  other. -/
  window : ∀ u, (uartRx i u).uartRxDone = true ↔
    ∃ t, (uartTx i t).loads.isSome = true ∧ t + 95 ≤ u ∧ u < t + 102
  /-- Throughout its window a byte is shown. -/
  data : ∀ t b u, (uartTx i t).loads = some b → t + 95 ≤ u → u < t + 102 →
    (uartRx i u).uartRxData = b
  /-- The bytes come out in the order in which they were loaded. -/
  order : ∀ t, Clocked.log (receives i) (t + 94) = loaded i t

variable {i}

/-- The receiver is at the byte whose window it is. -/
theorem rx_of_loads {n u : ℕ} {b : BitVec 8} (h : (uartTx i n).loads = some b) (hlo : n + 95 ≤ u)
    (hhi : u < n + 102) : (uartRx i u).uartRxDone = true ∧ (uartRx i u).uartRxData = b := by
  obtain ⟨hq, hb⟩ := rxAge_of_loads h (by omega : u - n - 3 ≤ 98)
  rw [show n + 3 + (u - n - 3) = u by omega] at hq hb
  have hrx := (linkInv i u).rx
  refine ⟨?_, ?_⟩
  · rw [hrx.done, decide_eq_true (by omega)]
  · rw [hrx.data (by omega) (by omega), hb]

/-- A window is that of a byte that was loaded. -/
theorem loads_of_uartRxDone {u : ℕ} (h : (uartRx i u).uartRxDone = true) :
    ∃ t, (uartTx i t).loads = some (rxByte i u) ∧ t + 95 ≤ u ∧ u < t + 102 := by
  rw [(linkInv i u).rx.done, decide_eq_true_eq] at h
  rcases loads_of_rxAge (i := i) u with hq | ⟨n, hn, hb⟩
  · omega
  · exact ⟨n, hb, by omega, by omega⟩

/-- A byte is loaded at the earliest 99 cycles after the one before. -/
theorem loads_apart {t t' : ℕ} {b b' : BitVec 8} (h : (uartTx i t).loads = some b)
    (h' : (uartTx i t').loads = some b') (hlt : t < t') : t + 99 ≤ t' := by
  by_contra hn
  have ha := (txAge_of_loads h (by omega : t' - t - 1 < 99)).1
  rw [show t + 1 + (t' - t - 1) = t' by omega] at ha
  have := txAge_of_posUartEnTxd (posUartEnTxd_of_loads h').1
  omega

/-- A window opens 95 cycles after a load. -/
theorem receives_eq (t : ℕ) : receives i (t + 94) = (uartTx i t).loads := by
  unfold receives
  rcases hl : (uartTx i t).loads with _ | b
  · -- A window that is open at the next cycle has been open before.
    rw [if_neg]
    rintro hr
    rw [Bool.and_eq_true, Bool.not_eq_true'] at hr
    obtain ⟨hdone, hnot⟩ := hr
    obtain ⟨n, hn, hlo, hhi⟩ := loads_of_uartRxDone hdone
    have hne : n ≠ t := fun he => by
      rw [he, hl] at hn
      exact nomatch hn
    rw [(rx_of_loads hn (by omega : n + 95 ≤ t + 94) (by omega)).1] at hnot
    exact Bool.noConfusion hnot
  · obtain ⟨hdone, hdata⟩ := rx_of_loads hl (by omega : t + 95 ≤ t + 94 + 1) (by omega)
    have hnot : (uartRx i (t + 94)).uartRxDone = false := by
      by_contra hd
      rw [Bool.not_eq_false] at hd
      obtain ⟨n, hn, hlo, hhi⟩ := loads_of_uartRxDone hd
      have := loads_apart hn hl (by omega)
      omega
    rw [hdone, hnot, hdata]
    rfl

/-- No window opens before the first byte can have been received. -/
theorem receives_log_start (t : ℕ) (ht : t ≤ 94) : Clocked.log (receives i) t = [] := by
  induction t with
  | zero => rfl
  | succ t ih =>
    rw [Clocked.log_succ, ih (by omega)]
    unfold receives
    rw [if_neg]
    · rfl
    · intro hr
      rw [Bool.and_eq_true] at hr
      obtain ⟨n, -, hlo, -⟩ := loads_of_uartRxDone hr.1
      omega

/-- The receiver shows the bytes that the serializer has been given, 94 cycles later. -/
theorem receives_log (t : ℕ) : Clocked.log (receives i) (t + 94) = loaded i t := by
  induction t with
  | zero => exact receives_log_start 94 le_rfl
  | succ t ih =>
    rw [show t + 1 + 94 = t + 94 + 1 by omega, Clocked.log_succ, ih, receives_eq, loaded_succ]

/-- For every sequence of CPU writes, and so for every sequence of bytes that the transmitter loads
at any distance that its busy signal allows: `uart_rx` shows each of them in one window of seven
cycles, in order, and nothing else. -/
theorem uart_roundTrip (i : ℕ → UartTxIn) : RoundTrip i where
  apart t t' h h' hlt := by
    obtain ⟨b, hb⟩ := Option.isSome_iff_exists.mp h
    obtain ⟨b', hb'⟩ := Option.isSome_iff_exists.mp h'
    exact loads_apart hb hb' hlt
  window u := by
    constructor
    · intro h
      obtain ⟨t, ht, hlo, hhi⟩ := loads_of_uartRxDone h
      exact ⟨t, by rw [ht]; rfl, hlo, hhi⟩
    · rintro ⟨t, ht, hlo, hhi⟩
      obtain ⟨b, hb⟩ := Option.isSome_iff_exists.mp ht
      exact (rx_of_loads hb hlo hhi).1
  data t b u h hlo hhi := (rx_of_loads h hlo hhi).2
  order := receives_log

end Run

end RV32Pipeline
