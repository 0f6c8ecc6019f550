import RV32Pipeline.Rtl.Define

/-!
# The UART of `uart.sv`

`uart_tx_fifo`, a FIFO of 16 bytes with a serializer behind it, and `uart_rx`. Both take `BPS_CNT`
clocks for a bit, whatever their parameter `BPS`. The reset is asynchronous, so a run starts in the
state that it leaves.
-/

namespace RV32Pipeline

/-- The local parameter `BPS_CNT` of both modules. -/
def bpsCnt : BitVec 16 := 10#16

/-- The registers that count the clocks of a bit and the bits of a frame: `clk_cnt` with `tx_cnt` in
`uart_tx_fifo`, and with `rx_cnt` in `uart_rx`. -/
structure BitCounter where
  clkCnt : BitVec 16
  bitCnt : BitVec 4
  deriving DecidableEq

namespace BitCounter

/-- The counter while nothing is transferred. -/
def zero : BitCounter := ⟨0#16, 0#4⟩

/-- The counter after a clock edge. -/
def next (flag : Bool) (c : BitCounter) : BitCounter :=
  if flag then
    if c.clkCnt < bpsCnt - 1#16 then ⟨c.clkCnt + 1#16, c.bitCnt⟩ else ⟨0#16, c.bitCnt + 1#4⟩
  else zero

/-- The middle of the stop bit, where a frame ends on either side. -/
def lastClk (c : BitCounter) : Bool := c.bitCnt == 9#4 && c.clkCnt == bpsCnt / 2#16

end BitCounter

/-! ## The transmitter -/

/-- The inputs of `uart_tx_fifo`. -/
structure UartTxIn where
  cpuAddr : Word
  cpuWrEn : Bool
  cpuWrData : BitVec 8

/-- The registers of the serializer in `uart_tx_fifo`. -/
structure Serializer where
  uartTxEnD0 : Bool
  uartTxEnD1 : Bool
  txFlag : Bool
  uartDataReg : BitVec 8
  cnt : BitCounter
  uartTxd : Bool
  txDone : Bool

namespace Serializer

variable (s : Serializer)

/-- The serializer after reset: the line is high. -/
def reset : Serializer := ⟨false, false, false, 0#8, BitCounter.zero, true, false⟩

/-- The wire `pos_uart_en_txd`. -/
def posUartEnTxd : Bool := s.uartTxEnD0 && !s.uartTxEnD1

/-- The value that the line takes for the bit `tx_cnt` of a frame. -/
def txdOf (uartDataReg : BitVec 8) (txCnt : BitVec 4) : Bool :=
  match txCnt with
  | 0#4 => false
  | 1#4 => uartDataReg.getLsbD 0
  | 2#4 => uartDataReg.getLsbD 1
  | 3#4 => uartDataReg.getLsbD 2
  | 4#4 => uartDataReg.getLsbD 3
  | 5#4 => uartDataReg.getLsbD 4
  | 6#4 => uartDataReg.getLsbD 5
  | 7#4 => uartDataReg.getLsbD 6
  | 8#4 => uartDataReg.getLsbD 7
  | _ => true

/-- The serializer after a clock edge, with the registers `uart_tx_en` and `uart_tx_data`. -/
def next (uartTxEn : Bool) (uartTxData : BitVec 8) : Serializer where
  uartTxEnD0 := uartTxEn
  uartTxEnD1 := s.uartTxEnD0
  txFlag := if s.posUartEnTxd then true else if s.cnt.lastClk then false else s.txFlag
  uartDataReg :=
    if s.posUartEnTxd then uartTxData else if s.cnt.lastClk then 0#8 else s.uartDataReg
  cnt := s.cnt.next s.txFlag
  uartTxd := if s.txFlag then txdOf s.uartDataReg s.cnt.bitCnt else true
  txDone := s.cnt.lastClk

end Serializer

/-- The registers of `uart_tx_fifo`. -/
structure UartTxFifo extends Serializer where
  fifoBuffer : BitVec 4 → BitVec 8
  fifoWrPtr : BitVec 4
  fifoRdPtr : BitVec 4
  fifoCnt : BitVec 5
  uartTxEn : Bool
  uartTxData : BitVec 8

namespace UartTxFifo

variable (i : UartTxIn) (u : UartTxFifo)

/-- The registers after reset. -/
def reset : UartTxFifo where
  toSerializer := Serializer.reset
  fifoBuffer := fun _ => 0#8
  fifoWrPtr := 0#4
  fifoRdPtr := 0#4
  fifoCnt := 0#5
  uartTxEn := false
  uartTxData := 0#8

/-- The local parameter `FIFO_DEPTH`. -/
def fifoDepth : BitVec 5 := 16#5

/-- The wire `cpu_write_valid`. -/
def cpuWriteValid : Bool :=
  i.cpuWrEn && i.cpuAddr == uartDataAddr && decide (u.fifoCnt < fifoDepth)

/-- The output `fifo_full`. -/
def fifoFull : Bool := decide (fifoDepth ≤ u.fifoCnt)

/-- The wire `uart_tx_busy`. -/
def uartTxBusy : Bool := u.txFlag || u.uartTxEn || u.uartTxEnD0

/-- The read side takes the next byte at this edge. -/
def takes : Bool := !u.uartTxBusy && decide (1#5 < u.fifoCnt)

/-- The registers after a clock edge. -/
def next : UartTxFifo where
  toSerializer := u.toSerializer.next u.uartTxEn u.uartTxData
  fifoBuffer :=
    if u.cpuWriteValid i then Function.update u.fifoBuffer u.fifoWrPtr i.cpuWrData else u.fifoBuffer
  fifoWrPtr := if u.cpuWriteValid i then u.fifoWrPtr + 1#4 else u.fifoWrPtr
  fifoRdPtr := if u.takes then u.fifoRdPtr + 1#4 else u.fifoRdPtr
  -- A write takes precedence over the decrement.
  fifoCnt :=
    if u.cpuWriteValid i then u.fifoCnt + 1#5
    else if u.uartTxEn && decide (0#5 < u.fifoCnt) then u.fifoCnt - 1#5
    else u.fifoCnt
  uartTxEn := u.takes
  uartTxData := if u.takes then u.fifoBuffer u.fifoRdPtr else u.uartTxData

end UartTxFifo

/-! ## The receiver -/

/-- The registers of `uart_rx`. -/
structure UartRx where
  uartRxD0 : Bool
  uartRxD1 : Bool
  rxFlag : Bool
  cnt : BitCounter
  uartRxDataReg : BitVec 8
  uartRxDone : Bool
  uartRxData : BitVec 8

namespace UartRx

variable (uartRxd : Bool) (r : UartRx)

/-- The registers after reset. -/
def reset : UartRx := ⟨false, false, false, BitCounter.zero, 0#8, false, 0#8⟩

/-- The wire `neg_uart_rx_data`. -/
def negUartRxData : Bool := r.uartRxD1 && !r.uartRxD0

/-- A byte with one bit replaced. -/
def setBit (x : BitVec 8) (k : ℕ) (v : Bool) : BitVec 8 :=
  (x &&& ~~~(1#8 <<< k)) ||| ((BitVec.ofBool v).setWidth 8 <<< k)

/-- The register `uart_rx_data_reg` when the bit `rx_cnt` of a frame is sampled. -/
def sample (dataReg : BitVec 8) (rxCnt : BitVec 4) : BitVec 8 :=
  match rxCnt with
  | 1#4 => setBit dataReg 0 uartRxd
  | 2#4 => setBit dataReg 1 uartRxd
  | 3#4 => setBit dataReg 2 uartRxd
  | 4#4 => setBit dataReg 3 uartRxd
  | 5#4 => setBit dataReg 4 uartRxd
  | 6#4 => setBit dataReg 5 uartRxd
  | 7#4 => setBit dataReg 6 uartRxd
  | 8#4 => setBit dataReg 7 uartRxd
  | _ => dataReg

/-- The registers after a clock edge. -/
def next : UartRx where
  uartRxD0 := uartRxd
  uartRxD1 := r.uartRxD0
  rxFlag := if r.negUartRxData then true else if r.cnt.lastClk then false else r.rxFlag
  cnt := r.cnt.next r.rxFlag
  uartRxDataReg :=
    if r.rxFlag then
      if r.cnt.clkCnt == bpsCnt / 2#16 then sample uartRxd r.uartRxDataReg r.cnt.bitCnt
      else r.uartRxDataReg
    else 0#8
  uartRxDone := r.cnt.bitCnt == 9#4
  uartRxData := if r.cnt.bitCnt == 9#4 then r.uartRxDataReg else 0#8

end UartRx

end RV32Pipeline
