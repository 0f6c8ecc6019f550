import RV32Pipeline.Machine.NpcHost
import RV32Pipeline.Rtl.Uart

/-!
# The UART of the top module on the simulator

`npc` with `u_uart_tx_fifo` on the write channel of the core and `u_uart_rx` on its line. The two
addresses of this UART are neither in `pmem` nor those of a device of the simulator, and an access to
them goes to `pmem_read` or `pmem_write` like every other. There it is out of bounds. So the access
stops the simulator, and as long as it runs, the FIFO is empty, the line is high, and the receiver
has shown nothing (`NpcUart.silent_of_running`).
-/

namespace RV32Pipeline

/-- The inputs of the instance `u_uart_tx_fifo`: the write channel of the core. -/
def Datapath.uartTxIn (s : Datapath) : UartTxIn :=
  let o := s.out ⟨false, 0#32, 0#32, false⟩
  ⟨o.dataAxiAwaddr, o.dataAxiAwvalid, o.dataAxiWdata.extractLsb' 0 8⟩

/-- The registers of `npc` with those of its UART, and the variables of the simulator. -/
structure NpcUart where
  top : NpcHost
  tx : UartTxFifo
  rx : UartRx

namespace NpcUart

/-- What a cycle is given, where `inst` and `data` are what the devices of the host return. -/
def npcIn (inst data : Devices) (x : NpcUart) : NpcIn where
  inst := inst
  data := data
  uartRxData := x.rx.uartRxData
  txDone := x.tx.txDone
  fifoFull := x.tx.fifoFull

/-- One cycle, with what the devices return to the fetch and to the load. -/
def step (d : Devices × Devices) (x : NpcUart) : NpcUart where
  top := x.top.step (x.npcIn d.1 d.2)
  tx := x.tx.next x.top.npc.core.uartTxIn
  rx := x.rx.next x.tx.uartTxd

/-- The registers after reset, with an image in `pmem`. -/
def init (pmem : ByteMem 32) : NpcUart := ⟨NpcHost.init pmem, UartTxFifo.reset, UartRx.reset⟩

/-- The instruction in M loads from the UART or stores to it. -/
def accessesUart (x : NpcUart) : Prop := x.top.accessesM = true ∧
  (x.top.npc.core.em.aluResultM = uartDataAddr ∨ x.top.npc.core.em.aluResultM = uartCtrlAddr)

/-- Nothing is in the FIFO or on the line, and the receiver shows nothing. -/
structure Silent (x : NpcUart) : Prop where
  tx : x.tx = UartTxFifo.reset
  rxFlag : x.rx.rxFlag = false
  cnt : x.rx.cnt = BitCounter.zero
  done : x.rx.uartRxDone = false
  data : x.rx.uartRxData = 0#8
  -- The receiver has not seen the line fall.
  high : x.rx.uartRxD1 = true → x.rx.uartRxD0 = true

variable {x : NpcUart} (d : Devices × Devices)

/-- A cycle after which the state is `RUNNING` has no access to the UART. -/
theorem not_accessesUart (h : (x.step d).top.host.state = .running) : ¬ x.accessesUart := by
  rintro ⟨hacc, ha⟩
  have hab := (x.top.running_of_state_step _ h).2
  rw [NpcHost.abortsNow, Bool.or_eq_false_iff, hacc, Bool.true_and] at hab
  rcases ha with ha | ha
  · rw [ha] at hab
    exact absurd hab.2 (by decide)
  · rw [ha] at hab
    exact absurd hab.2 (by decide)

/-- A transmitter to which nothing is written stays as after reset. -/
theorem next_reset {i : UartTxIn} (h : (i.cpuWrEn && i.cpuAddr == uartDataAddr) = false) :
    UartTxFifo.reset.next i = UartTxFifo.reset := by
  have hw : UartTxFifo.reset.cpuWriteValid i = false := by
    rw [UartTxFifo.cpuWriteValid, h, Bool.false_and]
  simp only [UartTxFifo.next, hw]
  rfl

/-- A cycle without an access leaves the UART silent. -/
theorem Silent.step (h : x.Silent) (hno : ¬ x.accessesUart) : (x.step d).Silent := by
  -- A write to the FIFO is such an access.
  have hw : (x.top.npc.core.uartTxIn.cpuWrEn &&
      x.top.npc.core.uartTxIn.cpuAddr == uartDataAddr) = false := Bool.eq_false_iff.mpr fun hw => by
    rw [Bool.and_eq_true, beq_iff_eq] at hw
    exact hno ⟨Bool.or_eq_true_iff.mpr (.inr hw.1), .inl hw.2⟩
  -- The line is high and has not fallen, so the receiver does not start.
  have hline : x.tx.uartTxd = true := by rw [h.tx]; rfl
  have hneg : x.rx.negUartRxData = false := by
    rw [UartRx.negUartRxData]
    cases h1 : x.rx.uartRxD1
    · rfl
    · rw [h.high h1]
      rfl
  refine ⟨?_, ?_, ?_, ?_, ?_, fun _ => hline⟩
  · change x.tx.next _ = _
    rw [h.tx, next_reset hw]
  · change (if x.rx.negUartRxData then true
      else if x.rx.cnt.lastClk then false else x.rx.rxFlag) = _
    rw [hneg, h.cnt, h.rxFlag]
    rfl
  · change x.rx.cnt.next x.rx.rxFlag = _
    rw [h.rxFlag]
    rfl
  · change (x.rx.cnt.bitCnt == 9#4) = _
    rw [h.cnt]
    rfl
  · change (if x.rx.cnt.bitCnt == 9#4 then x.rx.uartRxDataReg else 0#8) = _
    rw [h.cnt]
    rfl

/-- For every image, every program, and all that the devices return: as long as the state is
`RUNNING`, no instruction has accessed the UART, and the UART is silent. -/
theorem silent_of_running (pmem : ByteMem 32) (d : ℕ → Devices × Devices) {t : ℕ}
    (h : (Clocked.run step (init pmem) d t).top.host.state = .running) :
    (∀ n < t, ¬ (Clocked.run step (init pmem) d n).accessesUart) ∧
      (Clocked.run step (init pmem) d t).Silent := by
  induction t with
  | zero =>
    exact ⟨fun n hn => absurd hn (Nat.not_lt_zero n), rfl, rfl, rfl, rfl, rfl,
      fun h => absurd h Bool.false_ne_true⟩
  | succ t ih =>
    have hno := not_accessesUart (d t) h
    obtain ⟨hbefore, hsilent⟩ := ih (NpcHost.running_of_state_step _ _ h).1.1
    exact ⟨Nat.forall_lt_succ_right.mpr ⟨hbefore, hno⟩, hsilent.step (d t) hno⟩

/-! ## A program that stores a byte -/

/-- The words `lui x1, 0xa0000`, `addi x2, x0, 0x41`, `sb x2, 0x3f8(x1)`, and `j 0`. -/
def storesByte : ByteMem 32 :=
  ByteMem.ofWords pcRst [0xa00000b7#32, 0x04100113#32, 0x3e208c23#32, 0x0000006f#32]

/-- The run of the program. -/
def storesByteRun : ℕ → NpcUart :=
  Clocked.run step (init storesByte) fun _ => (⟨0#32, 0#64⟩, ⟨0#32, 0#64⟩)

/-- The UART is silent up to the cycle of the store, and in the next cycle the state is `ABORT`. -/
theorem silent_of_running_storesByte : (storesByteRun 5).Silent ∧ (storesByteRun 5).accessesUart ∧
    (storesByteRun 6).top.host.state = .abort :=
  have hrun : (storesByteRun 5).top.host.state = .running := by decide +kernel
  ⟨(silent_of_running storesByte _ hrun).2, ⟨by decide +kernel, .inl (by decide +kernel)⟩,
    by decide +kernel⟩

end NpcUart

end RV32Pipeline
