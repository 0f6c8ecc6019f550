import RV32Pipeline.Uart.Link

/-!
# The last byte of the transmit FIFO

The read side of `uart_tx_fifo` takes a byte only if `fifo_cnt` is above 1, so the count never comes
back to 0: once a byte has been accepted, one always stays behind (`fifoCnt_pos_iff`). The
transmitter comes to rest with it, and sends it only when another byte is written.
-/

namespace RV32Pipeline

/-- The CPU writes to `UART_DATA_ADDR`. -/
def UartTxIn.writesData (i : UartTxIn) : Bool := i.cpuWrEn && i.cpuAddr == uartDataAddr

/-- The control registers of `uart_tx_fifo`: all but the bytes. -/
@[ext]
structure TxControl where
  fifoWrPtr : BitVec 4
  fifoRdPtr : BitVec 4
  fifoCnt : BitVec 5
  uartTxEn : Bool
  uartTxEnD0 : Bool
  uartTxEnD1 : Bool
  txFlag : Bool
  cnt : BitCounter
  uartTxd : Bool
  txDone : Bool
  deriving DecidableEq

/-- The control registers of a state. -/
def UartTxFifo.control (u : UartTxFifo) : TxControl where
  fifoWrPtr := u.fifoWrPtr
  fifoRdPtr := u.fifoRdPtr
  fifoCnt := u.fifoCnt
  uartTxEn := u.uartTxEn
  uartTxEnD0 := u.uartTxEnD0
  uartTxEnD1 := u.uartTxEnD1
  txFlag := u.txFlag
  cnt := u.cnt
  uartTxd := u.uartTxd
  txDone := u.txDone

/-- A state is quiescent: no CPU write arrives, the transmitter is not busy, and the next state has
the same control registers. -/
structure UartTxFifo.Quiescent (i : UartTxIn) (u : UartTxFifo) : Prop where
  idle : i.writesData = false
  notBusy : u.uartTxBusy = false
  still : (u.next i).control = u.control

/-- In cycle `t` every accepted byte has been handed to the serializer, and the FIFO is empty. -/
structure Drained (i : ℕ → UartTxIn) (t : ℕ) : Prop where
  loaded : loaded i t = accepted i t
  fifoCnt : (uartTx i t).fifoCnt = 0#5

section Run

variable (i : ℕ → UartTxIn)

/-- The count is at least 2 while a byte is taken, and at least 1 from the first accepted byte
on. -/
structure KeepsByte (t : ℕ) : Prop where
  en : (uartTx i t).uartTxEn = true → 1 < (uartTx i t).fifoCnt.toNat
  pos : accepted i t ≠ [] → 0 < (uartTx i t).fifoCnt.toNat

/-- A clock edge keeps a byte behind. -/
theorem KeepsByte.succ {t : ℕ} (h : KeepsByte i t) : KeepsByte i (t + 1) := by
  have hn := (handshake i t).fifoCnt_next (i t)
  rw [← uartTx_succ] at hn
  constructor
  · intro ht
    -- The count was above 1 when the byte was taken, and no decrement has come yet.
    have htakes : (uartTx i t).takes = true := ht
    obtain ⟨-, he, -, hc⟩ := Handshake.not_busy_of_takes htakes
    rw [he, Bool.false_and, Bool.toNat_false] at hn
    omega
  · intro hne
    rcases Bool.eq_false_or_eq_true ((uartTx i t).cpuWriteValid (i t)) with hw | hw
    · rw [hw, Bool.not_true, Bool.and_false, Bool.toNat_false, Bool.toNat_true] at hn
      omega
    · have hacc : accepted i (t + 1) = accepted i t := by
        rw [accepted_succ, UartTxFifo.accepts, hw]
        simp
      have hpos := h.pos (hacc ▸ hne)
      rw [hw, Bool.not_false, Bool.and_true, Bool.toNat_false] at hn
      rcases Bool.eq_false_or_eq_true (uartTx i t).uartTxEn with he | he
      · have hen := h.en he
        rw [he, Bool.toNat_true] at hn
        omega
      · rw [he, Bool.toNat_false] at hn
        omega

/-- A byte is kept behind in every cycle. -/
theorem keepsByte (t : ℕ) : KeepsByte i t := by
  induction t with
  | zero => exact ⟨fun h => absurd h Bool.false_ne_true, fun h => absurd rfl h⟩
  | succ t ih => exact ih.succ

/-- A byte is accepted exactly if the CPU writes it and there is room. -/
theorem cpuWriteValid_eq (i : UartTxIn) (u : UartTxFifo) :
    u.cpuWriteValid i = (i.writesData && decide (u.fifoCnt < UartTxFifo.fifoDepth)) := rfl

/-- An edge at which nothing is accepted. -/
theorem accepted_succ_eq_nil_iff (t : ℕ) : accepted i (t + 1) = [] ↔
    accepted i t = [] ∧ (uartTx i t).cpuWriteValid (i t) = false := by
  rw [accepted_succ, List.append_eq_nil_iff, UartTxFifo.accepts]
  rcases Bool.eq_false_or_eq_true ((uartTx i t).cpuWriteValid (i t)) with hw | hw <;> simp [hw]

/-- A transmitter that has accepted nothing is as after reset. -/
structure Untouched (t : ℕ) : Prop where
  fifoCnt : (uartTx i t).fifoCnt = 0#5
  en : (uartTx i t).uartTxEn = false
  d0 : (uartTx i t).uartTxEnD0 = false
  loaded : loaded i t = []

/-- Before the first accepted byte nothing happens. -/
theorem untouched (t : ℕ) (h : accepted i t = []) : Untouched i t := by
  induction t with
  | zero => exact ⟨rfl, rfl, rfl, rfl⟩
  | succ t ih =>
    obtain ⟨hacc, hw⟩ := (accepted_succ_eq_nil_iff i t).mp h
    obtain ⟨hcnt, hen, hd0, hload⟩ := ih hacc
    have htakes : (uartTx i t).takes = false := by
      rw [UartTxFifo.takes, hcnt]
      exact Bool.and_false _
    refine ⟨?_, htakes, hen, ?_⟩
    · rw [uartTx_succ, UartTxFifo.next]
      simp only [hw, hen, Bool.false_and, Bool.false_eq_true, if_false]
      exact hcnt
    · rw [loaded_succ, hload, UartTxFifo.loads, (handshake i t).posUartEnTxd, hd0]
      rfl

/-- In every cycle `fifo_cnt` is 0 exactly if no byte has been accepted. -/
theorem fifoCnt_eq_zero_iff (t : ℕ) : (uartTx i t).fifoCnt = 0#5 ↔ accepted i t = [] := by
  constructor
  · intro h
    by_contra hne
    have hpos := (keepsByte i t).pos hne
    rw [h] at hpos
    exact absurd hpos (by decide)
  · intro h
    exact (untouched i t h).fifoCnt

/-- No byte has been accepted exactly if the CPU has written none: the first write finds room. -/
theorem accepted_eq_nil_iff (t : ℕ) :
    accepted i t = [] ↔ ∀ n < t, (i n).writesData = false := by
  induction t with
  | zero => exact iff_of_true rfl fun n hn => absurd hn (Nat.not_lt_zero n)
  | succ t ih =>
    rw [accepted_succ_eq_nil_iff, Nat.forall_lt_succ_right, ← ih]
    refine and_congr_right fun hacc => ?_
    rw [cpuWriteValid_eq, (untouched i t hacc).fifoCnt]
    exact iff_of_eq (congrArg (· = false) (Bool.and_true _))

/-- The FIFO is drained exactly if no byte has been written: the last one never leaves it. -/
theorem drained_iff_noWrites (t : ℕ) : Drained i t ↔ ∀ n < t, (i n).writesData = false := by
  rw [← accepted_eq_nil_iff]
  constructor
  · intro h
    exact (fifoCnt_eq_zero_iff i t).mp h.fifoCnt
  · intro h
    have hu := untouched i t h
    exact ⟨hu.loaded.trans h.symm, hu.fifoCnt⟩

/-- For every sequence of CPU writes, and in every cycle in which the transmitter is quiescent: all
accepted bytes have been handed to the serializer and the FIFO is empty if and only if the CPU has
not written a byte so far. -/
theorem drained_iff (t : ℕ) (_hq : (uartTx i t).Quiescent (i t)) :
    Drained i t ↔ ∀ n < t, (i n).writesData = false :=
  drained_iff_noWrites i t

/-- A CPU that writes one byte after reset. -/
def oneWrite (t : ℕ) : UartTxIn := ⟨uartDataAddr, t == 0, 0x41#8⟩

/-- In the cycle after the write the transmitter is quiescent, and the byte is in the FIFO. -/
theorem drained_iff_oneWrite : ¬ Drained oneWrite 1 := fun hd =>
  absurd ((drained_iff oneWrite 1 ⟨rfl, rfl, by decide⟩).mp hd 0 (by decide)) (by decide)

/-- So the FIFO is not drained whenever the transmitter is quiescent. -/
theorem oneWrite_not_drained :
    ¬ ∀ t, (uartTx oneWrite t).Quiescent (oneWrite t) → Drained oneWrite t := by
  intro h
  have hd := (h 1 ⟨rfl, rfl, by decide⟩).fifoCnt
  revert hd
  decide

/-! ## Coming to rest -/

variable {i} {t : ℕ}

/-- A transmitter that is not busy takes a byte exactly if there are two. -/
theorem takes_eq {u : UartTxFifo} (h : u.uartTxBusy = false) :
    u.takes = decide (1 < u.fifoCnt.toNat) := by
  rw [UartTxFifo.takes, h]
  exact decide_eq_decide.mpr Iff.rfl

/-- With at most one byte in the FIFO none is taken. -/
theorem takes_of_le {u : UartTxFifo} (h : u.fifoCnt.toNat ≤ 1) : u.takes = false := by
  by_contra ht
  rw [Bool.not_eq_false] at ht
  obtain ⟨-, -, -, hc⟩ := Handshake.not_busy_of_takes ht
  omega

/-- A quiescent transmitter that has accepted a byte has just one in its FIFO. -/
theorem fifoCnt_of_quiescent (hq : (uartTx i t).Quiescent (i t)) (hacc : accepted i t ≠ []) :
    (uartTx i t).fifoCnt.toNat = 1 := by
  have hen : (uartTx i t).takes = (uartTx i t).uartTxEn := congrArg TxControl.uartTxEn hq.still
  have hbusy := hq.notBusy
  rw [UartTxFifo.uartTxBusy, Bool.or_eq_false_iff, Bool.or_eq_false_iff] at hbusy
  rw [takes_eq hq.notBusy, hbusy.1.2, decide_eq_false_iff_not] at hen
  have hpos := (keepsByte i t).pos hacc
  omega

/-- Without a write and without a byte on its way the count stays. -/
theorem fifoCnt_idle (hw : (i t).writesData = false) (he : (uartTx i t).uartTxEn = false) :
    (uartTx i (t + 1)).fifoCnt = (uartTx i t).fifoCnt := by
  rw [uartTx_succ, UartTxFifo.next]
  simp [cpuWriteValid_eq, hw, he]

/-- Without a load the transmitter grows older. -/
theorem txAge_idle (hd : (uartTx i t).uartTxEnD0 = false) :
    txAge i (t + 1) = txAge i t + 1 := by
  rw [txAge, (handshake i t).posUartEnTxd, hd]
  rfl

/-- A transmitter with nothing on its way, after the end of a frame and with at most one byte in
its FIFO, keeps its control registers if the CPU does not write. -/
theorem control_succ (hage : 98 ≤ txAge i t) (hw : (i t).writesData = false)
    (he : (uartTx i t).uartTxEn = false) (hd : (uartTx i t).uartTxEnD0 = false)
    (hd1 : (uartTx i t).uartTxEnD1 = false) (hdone : (uartTx i t).txDone = false)
    (hcnt : (uartTx i t).fifoCnt.toNat ≤ 1) :
    (uartTx i (t + 1)).control = (uartTx i t).control := by
  have htakes : (uartTx i t).takes = false := takes_of_le hcnt
  have hvalid : (uartTx i t).cpuWriteValid (i t) = false := by
    rw [cpuWriteValid_eq, hw, Bool.false_and]
  have hage' : txAge i (t + 1) = txAge i t + 1 := txAge_idle hd
  have htx := (linkInv i t).tx
  have htx' := (linkInv i (t + 1)).tx
  unfold UartTxFifo.control
  ext1
  case fifoWrPtr =>
    rw [uartTx_succ, UartTxFifo.next]
    simp [hvalid]
  case fifoRdPtr =>
    rw [uartTx_succ, UartTxFifo.next]
    simp [htakes]
  case fifoCnt => exact fifoCnt_idle hw he
  case uartTxEn => exact htakes.trans he.symm
  case uartTxEnD0 => exact he.trans hd.symm
  case uartTxEnD1 => exact hd.trans hd1.symm
  case txFlag =>
    show (uartTx i (t + 1)).txFlag = (uartTx i t).txFlag
    rw [htx.flag, htx'.flag, decide_eq_false (by omega), decide_eq_false (by omega)]
  case cnt =>
    show (uartTx i (t + 1)).cnt = (uartTx i t).cnt
    rw [htx.cnt, htx'.cnt, if_neg (by omega), if_neg (by omega)]
  case uartTxd =>
    show (uartTx i (t + 1)).uartTxd = (uartTx i t).uartTxd
    rw [htx.txd, htx'.txd, TxAt.lineAt_of_le _ (by omega), TxAt.lineAt_of_le _ (by omega)]
  case txDone =>
    refine Eq.trans ?_ hdone.symm
    show (uartTx i t).cnt.lastClk = false
    rw [htx.lastClk, decide_eq_false (by omega)]

/-- A transmitter with nothing on its way, after the end of a frame and with at most one byte in its
FIFO, is quiescent a cycle later if the CPU does not write. -/
theorem quiescent_succ (hage : 98 ≤ txAge i t) (he : (uartTx i t).uartTxEn = false)
    (hd : (uartTx i t).uartTxEnD0 = false) (hcnt : (uartTx i t).fifoCnt.toNat ≤ 1)
    (hw : (i t).writesData = false) (hw' : (i (t + 1)).writesData = false) :
    (uartTx i (t + 1)).Quiescent (i (t + 1)) := by
  have hage' : txAge i (t + 1) = txAge i t + 1 := txAge_idle hd
  have hcnt' : (uartTx i (t + 1)).fifoCnt.toNat ≤ 1 := by
    rw [fifoCnt_idle hw he]
    exact hcnt
  have he' : (uartTx i (t + 1)).uartTxEn = false := takes_of_le hcnt
  have hf' : (uartTx i (t + 1)).txFlag = false := by
    rw [(linkInv i (t + 1)).tx.flag, decide_eq_false (by omega)]
  have hdone' : (uartTx i (t + 1)).txDone = false := by
    show (uartTx i t).cnt.lastClk = false
    rw [(linkInv i t).tx.lastClk, decide_eq_false (by omega)]
  refine ⟨hw', ?_, control_succ (by omega) hw' he' he hd hdone' hcnt'⟩
  unfold UartTxFifo.uartTxBusy
  rw [hf', he', show (uartTx i (t + 1)).uartTxEnD0 = false from he]
  rfl

/-- How far a transmitter is from rest: a byte in the FIFO takes less than 200 cycles, from when it
is taken to the end of its frame. -/
def restMeasure (i : ℕ → UartTxIn) (t : ℕ) : ℕ :=
  let u := uartTx i t
  if u.uartTxEn then 200 * u.fifoCnt.toNat - 10
  else if u.uartTxEnD0 then 200 * u.fifoCnt.toNat + 150
  else 200 * u.fifoCnt.toNat + (101 - txAge i t)

/-- Without writes, an edge brings the transmitter to rest or nearer to it. -/
theorem rest_step (hw : (i t).writesData = false) (hw' : (i (t + 1)).writesData = false) :
    (uartTx i (t + 1)).Quiescent (i (t + 1)) ∨ restMeasure i (t + 1) < restMeasure i t := by
  have hn := (handshake i t).fifoCnt_next (i t)
  rw [← uartTx_succ, cpuWriteValid_eq, hw, Bool.false_and, Bool.not_false, Bool.and_true,
    Bool.toNat_false] at hn
  have hd0 : (uartTx i (t + 1)).uartTxEnD0 = (uartTx i t).uartTxEn := rfl
  have hen : (uartTx i (t + 1)).uartTxEn = (uartTx i t).takes := rfl
  have hold := (linkInv i t).tx
  rcases Bool.eq_false_or_eq_true (uartTx i t).uartTxEn with he | he
  · -- The byte on its way leaves the FIFO.
    have hc := (keepsByte i t).en he
    have ht : (uartTx i t).takes = false := by
      rw [UartTxFifo.takes, UartTxFifo.uartTxBusy, he]
      simp
    right
    rw [he, Bool.toNat_true] at hn
    simp only [restMeasure, he, hd0, hen, ht, if_true, Bool.false_eq_true, if_false]
    omega
  · rw [he, Bool.toNat_false] at hn
    rcases Bool.eq_false_or_eq_true (uartTx i t).uartTxEnD0 with hd | hd
    · -- The byte is loaded, and its frame starts.
      have ht : (uartTx i t).takes = false := by
        rw [UartTxFifo.takes, UartTxFifo.uartTxBusy, hd]
        simp
      have hage : txAge i (t + 1) = 1 := by
        rw [txAge, (handshake i t).posUartEnTxd, hd]
        rfl
      right
      simp only [restMeasure, he, hd, hd0, hen, ht, hage, if_true, Bool.false_eq_true, if_false]
      omega
    · have hage : txAge i (t + 1) = txAge i t + 1 := txAge_idle hd
      rcases Bool.eq_false_or_eq_true (uartTx i t).takes with ht | ht
      · -- The next byte is taken.
        obtain ⟨-, -, -, hc⟩ := Handshake.not_busy_of_takes ht
        right
        simp only [restMeasure, he, hd, hen, ht, if_true, Bool.false_eq_true, if_false]
        omega
      · by_cases hlt : txAge i t < 101
        · -- A frame goes on.
          right
          simp only [restMeasure, he, hd, hd0, hen, ht, hage, Bool.false_eq_true, if_false]
          omega
        · -- Nothing is left to do.
          left
          have hf : (uartTx i t).txFlag = false := by rw [hold.flag, decide_eq_false (by omega)]
          have hbusy : (uartTx i t).uartTxBusy = false := by
            rw [UartTxFifo.uartTxBusy, hf, he, hd]
            rfl
          rw [takes_eq hbusy, decide_eq_false_iff_not] at ht
          exact quiescent_succ (by omega) he hd (by omega) hw hw'

/-- A transmitter to which the CPU stops writing comes to rest. -/
theorem exists_quiescent {T : ℕ} (h : ∀ n, T ≤ n → (i n).writesData = false) :
    ∃ t, T ≤ t ∧ (uartTx i t).Quiescent (i t) := by
  obtain ⟨k, -, hk⟩ := Clocked.exists_goal_of_measure (f := fun k => T + k)
    (g := fun t => (uartTx i t).Quiescent (i t)) (μ := restMeasure i)
    (fun k => rest_step (h _ (Nat.le_add_right T k)) (h _ (Nat.le_add_right T (k + 1)))) 0
  exact ⟨_, Nat.le_add_right T _, hk⟩

/-- A run in which the CPU stops writing leaves no byte in a quiescent transmitter if and only if
the CPU writes none at all. -/
theorem drains_iff_of_stops {T : ℕ} (h : ∀ n, T ≤ n → (i n).writesData = false) :
    (∀ t, (uartTx i t).Quiescent (i t) → Drained i t) ↔ ∀ n, (i n).writesData = false := by
  constructor
  · intro hd n
    obtain ⟨t, ht, hq⟩ := exists_quiescent h
    by_cases hn : n < t
    · exact (drained_iff_noWrites i t).mp (hd t hq) n hn
    · exact h n (by omega)
  · intro hw t _
    exact (drained_iff_noWrites i t).mpr fun n _ => hw n

end Run

end RV32Pipeline
