import RV32Pipeline.Lib.ByteMem
import RV32Pipeline.Rtl.Define

/-!
# The memory and the devices of the simulator

`memory.cpp`, `device/mmio.c`, `device/uart.c`, and `utils/wavemanager.cpp`: what happens on the
host when the Verilog module `memory` calls `pmem_read` or `pmem_write`. An address of the UART or
of the timer goes to the device, an address outside `pmem` sets the state to `ABORT`.
-/

namespace RV32Pipeline

/-- The enumeration `CPU_state`. -/
inductive CpuState where
  | ended
  | abort
  | quit
  | running
  | stop
  deriving DecidableEq

/-- The variables of the simulator: `pmem`, `state`, `skip_difftest`, `sim_time`, the static
`last_simtime` of `mmio_write`, and whether `cur_trace` is set. The calls of `mmio_read` and the
bytes that `uart_write` prints are kept in order, and `failed` says that an `Assert` has failed. -/
structure Host where
  pmem : ByteMem 32
  state : CpuState
  skipDifftest : Bool
  simTime : ℤ
  lastSimtime : ℤ
  curTrace : Bool
  mmioReads : List Word
  uart : List (BitVec 8)
  failed : Bool

/-- What the host's own devices return in a call: `getchar()` and `get_time()`. -/
structure Devices where
  getchar : Word
  getTime : BitVec 64

namespace Host

/-! ## Addresses -/

/-- The constant `MBASE`. -/
def mbase : Word := 0x80000000#32

/-- The constant `MSIZE`. -/
def msize : Word := 0x08000000#32

/-- The addresses `UART_TX` and `UART_RX`. -/
def uartTx : Word := 0x10000000#32

/-- The address `UART_STATUS`. -/
def uartStatus : Word := 0x10000001#32

/-- The address `RTC_ADDR`. -/
def rtcAddr : Word := 0x02000048#32

/-- The address is one of the timer's. -/
def inRtc (addr : Word) : Bool := decide (rtcAddr ≤ addr) && decide (addr < rtcAddr + 8#32)

/-- The function `in_mmio`. -/
def inMmio (addr : Word) : Bool := addr == uartTx || addr == uartStatus || inRtc addr

/-- The function `memory_out_of_bound`. -/
def memoryOutOfBound (addr : Word) : Bool := decide (addr < mbase) || decide (mbase + msize ≤ addr)

/-! ## Devices -/

variable (dev : Devices) (addr data : Word) (h : Host)

/-- The function `skip_ref`. -/
def skipRef : Host := { h with skipDifftest := true }

/-- The function `uart_read`. -/
def uartRead : Word := if addr = uartTx then dev.getchar else 0x11#32

/-- The function `mmio_read`: of the timer only the offsets 0 and 4 can be read. -/
def mmioRead : Word × Host :=
  let h := { h.skipRef with mmioReads := h.mmioReads ++ [addr] }
  if addr = uartTx ∨ addr = uartStatus then (uartRead dev addr, h)
  else if inRtc addr then
    if addr = rtcAddr then (dev.getTime.setWidth 32, h)
    else if addr = rtcAddr + 4#32 then ((dev.getTime >>> 32).setWidth 32, h)
    else (0#32, { h with failed := true })
  else (0#32, h)

/-- The function `uart_write`: the status register is not writable. -/
def uartWrite : Host :=
  if addr = uartTx then { h with uart := h.uart ++ [data.extractLsb' 0 8] }
  else if addr = uartStatus then { h with failed := true }
  else h

/-- The function `mmio_write`. It returns early within three steps of `sim_time` after the write
before, to ignore the calls of one write after the first. -/
def mmioWrite : Host :=
  let h := h.skipRef
  if h.simTime - h.lastSimtime < 3 then h
  else
    let h := { h with lastSimtime := h.simTime }
    if addr = uartTx ∨ addr = uartStatus then uartWrite addr data h
    else if inRtc addr then h
    else { h with failed := true }

/-! ## Memory accesses -/

/-- The function `pmem_read`. -/
def pmemRead (raddr : Word) : Word × Host :=
  if inMmio raddr then mmioRead dev raddr h
  else if memoryOutOfBound raddr then (0#32, { h with state := .abort })
  else (h.pmem.load raddr, h)

/-- The `mask` of `pmem_write`, the bits of the selected bytes. -/
def byteMask (wmask : BitVec 4) : Word :=
  (if wmask.getLsbD 3 then 0xff#8 else 0#8) ++ (if wmask.getLsbD 2 then 0xff#8 else 0#8) ++
    (if wmask.getLsbD 1 then 0xff#8 else 0#8) ++ (if wmask.getLsbD 0 then 0xff#8 else 0#8)

/-- The function `pmem_write`: a word is read, changed in the selected bytes, and written back. -/
def pmemWrite (waddr wdata : Word) (wmask : BitVec 4) : Host :=
  if inMmio waddr then mmioWrite waddr wdata h
  else if memoryOutOfBound waddr then { h with state := .abort }
  else
    let mask := byteMask wmask
    let ret := (h.pmem.load waddr &&& ~~~mask) ||| (wdata &&& mask)
    { h with pmem := h.pmem.store waddr ret 0b1111#4 }

/-- `pmem_write` writes the selected bytes and no others. -/
theorem store_byteMask (m : ByteMem 32) (waddr wdata : Word) (wmask : BitVec 4) :
    m.store waddr ((m.load waddr &&& ~~~byteMask wmask) ||| (wdata &&& byteMask wmask)) 0b1111#4 =
      m.store waddr wdata wmask := by
  refine ByteMem.store_whole (by decide) fun k hk => ?_
  have hm : (byteMask wmask).extractLsb' (8 * k) 8 = (if wmask.getLsbD k then 0xff#8 else 0#8) ∧
      (~~~byteMask wmask).extractLsb' (8 * k) 8 = (if wmask.getLsbD k then 0#8 else 0xff#8) := by
    revert k wmask
    decide
  have hff : ∀ x : BitVec 8, x &&& 0xff#8 = x := by decide
  rw [BitVec.extractLsb'_or, BitVec.extractLsb'_and, BitVec.extractLsb'_and, hm.1, hm.2,
    ByteMem.extractLsb'_load m waddr hk]
  cases wmask.getLsbD k <;> simp [hff]

/-- The Verilog module `memory`, evaluated once: a write takes precedence over a read. -/
def memory (raddr waddr wdata : Word) (wmask : BitVec 4) (wen valid : Bool) : Word × Host :=
  if valid then
    if wen then (0#32, pmemWrite h waddr wdata wmask) else pmemRead dev h raddr
  else (0#32, h)

/-! ## What an access changes -/

/-- The address of a word in `pmem`. -/
def inPmem (addr : Word) : Bool := !inMmio addr && !memoryOutOfBound addr

/-- An access to the address sets the state to `ABORT`. -/
def aborts (addr : Word) : Bool := !inMmio addr && memoryOutOfBound addr

/-- The bytes of a word in `pmem` are at `MBASE` or above. -/
theorem mbase_le_of_inPmem {addr : Word} (ha : inPmem addr = true) {k : ℕ} (hk : k < 4) :
    mbase ≤ addr + BitVec.ofNat 32 k := by
  simp only [inPmem, memoryOutOfBound, Bool.and_eq_true, Bool.not_eq_true', Bool.or_eq_false_iff,
    decide_eq_false_iff_not, BitVec.lt_def, BitVec.le_def, mbase, msize] at ha
  simp only [BitVec.le_def, BitVec.toNat_add, BitVec.toNat_ofNat, mbase] at ha ⊢
  omega

/-- The bytes of a word of a device are below `MBASE`. -/
theorem lt_mbase_of_inMmio {addr : Word} (ha : inMmio addr = true) {k : ℕ} (hk : k < 4) :
    addr + BitVec.ofNat 32 k < mbase := by
  simp only [inMmio, inRtc, Bool.or_eq_true, Bool.and_eq_true, decide_eq_true_eq, beq_iff_eq,
    BitVec.lt_def, BitVec.le_def, ← BitVec.toNat_inj, uartTx, uartStatus, rtcAddr] at ha
  simp only [BitVec.lt_def, BitVec.toNat_add, BitVec.toNat_ofNat, mbase] at ha ⊢
  omega

/-- An address is in `pmem`, that of a device, or out of bounds. -/
theorem inPmem_of_not_aborts {addr : Word} (hm : inMmio addr = false) (ha : aborts addr = false) :
    inPmem addr = true := by
  rw [aborts, hm] at ha
  rw [inPmem, hm]
  simpa using ha

/-- A read changes the state if it is out of bounds, and calls `mmio_read` for a device. -/
theorem pmemRead_effect (raddr : Word) :
    (pmemRead dev h raddr).2.pmem = h.pmem ∧
      (pmemRead dev h raddr).2.state = (if aborts raddr then .abort else h.state) ∧
      (pmemRead dev h raddr).2.mmioReads =
        h.mmioReads ++ (if inMmio raddr then [raddr] else []) := by
  rw [pmemRead]
  cases hm : inMmio raddr
  · cases hb : memoryOutOfBound raddr <;> simp [aborts, hm, hb]
  · have ha : aborts raddr = false := by rw [aborts, hm]; rfl
    simp only [if_true, ha, Bool.false_eq_true, if_false, mmioRead]
    split_ifs <;> exact ⟨rfl, rfl, rfl⟩

/-- A read in `pmem` returns the word there. -/
theorem pmemRead_of_inPmem {raddr : Word} (ha : inPmem raddr = true) :
    (pmemRead dev h raddr).1 = h.pmem.load raddr := by
  simp only [inPmem, Bool.and_eq_true, Bool.not_eq_true'] at ha
  rw [pmemRead, ha.1, ha.2]
  rfl

/-- A write changes the state if it is out of bounds, and the selected bytes if it is in `pmem`. -/
theorem pmemWrite_effect (waddr wdata : Word) (wmask : BitVec 4) :
    (pmemWrite h waddr wdata wmask).pmem =
        (if inPmem waddr then h.pmem.store waddr wdata wmask else h.pmem) ∧
      (pmemWrite h waddr wdata wmask).state = (if aborts waddr then .abort else h.state) ∧
      (pmemWrite h waddr wdata wmask).mmioReads = h.mmioReads := by
  rw [pmemWrite]
  cases hm : inMmio waddr
  · cases hb : memoryOutOfBound waddr <;> simp [aborts, inPmem, hm, hb, store_byteMask]
  · have ha : aborts waddr = false := by rw [aborts, hm]; rfl
    have hp : inPmem waddr = false := by rw [inPmem, hm]; rfl
    simp only [if_true, ha, hp, Bool.false_eq_true, if_false, mmioWrite, uartWrite]
    split_ifs <;> exact ⟨rfl, rfl, rfl⟩

/-- What an evaluation of the module `memory` changes. -/
theorem memory_effect (raddr waddr wdata : Word) (wmask : BitVec 4) (wen valid : Bool) :
    (memory dev h raddr waddr wdata wmask wen valid).2.pmem =
        (if valid && wen && inPmem waddr then h.pmem.store waddr wdata wmask else h.pmem) ∧
      (memory dev h raddr waddr wdata wmask wen valid).2.state =
        (if valid && aborts (if wen then waddr else raddr) then .abort else h.state) ∧
      (memory dev h raddr waddr wdata wmask wen valid).2.mmioReads =
        h.mmioReads ++ (if valid && !wen && inMmio raddr then [raddr] else []) := by
  rw [memory]
  cases valid
  · simp
  · cases wen
    · simpa using pmemRead_effect dev h raddr
    · simpa using pmemWrite_effect h waddr wdata wmask

/-- A read of a word in `pmem` through the module `memory`. -/
theorem memory_of_inPmem {raddr : Word} (ha : inPmem raddr = true) (waddr wdata : Word)
    (wmask : BitVec 4) :
    (memory dev h raddr waddr wdata wmask false true).1 = h.pmem.load raddr :=
  pmemRead_of_inPmem dev h ha

/-! ## Simulated time -/

/-- The constant `MAX_WAVE_SIZE`. -/
def maxWaveSize : ℤ := 1000000

/-- The function `SwitchWaveTrace`: a new file starts, and `sim_time` starts again. -/
def switchWaveTrace : Host := { h with curTrace := true, simTime := 0 }

/-- The function `EvalAndWaveTrace`, where `eval` is what the evaluation of the circuit does on the
host. -/
def evalAndWaveTrace (eval : Host → Host) : Host :=
  let h := if !h.curTrace || decide (maxWaveSize ≤ h.simTime) then h.switchWaveTrace else h
  let h := eval h
  { h with simTime := h.simTime + 1 }

/-- `EvalAndWaveTrace` changes only the simulated time, besides what the evaluation changes. -/
theorem evalAndWaveTrace_effect (eval : Host → Host) :
    ∃ h' : Host, (h'.pmem = h.pmem ∧ h'.state = h.state ∧ h'.mmioReads = h.mmioReads) ∧
      (h.evalAndWaveTrace eval).pmem = (eval h').pmem ∧
      (h.evalAndWaveTrace eval).state = (eval h').state ∧
      (h.evalAndWaveTrace eval).mmioReads = (eval h').mmioReads := by
  rw [evalAndWaveTrace]
  split_ifs
  · exact ⟨h.switchWaveTrace, ⟨rfl, rfl, rfl⟩, rfl, rfl, rfl⟩
  · exact ⟨h, ⟨rfl, rfl, rfl⟩, rfl, rfl, rfl⟩

end Host

/-- The variables at the start of the simulator, with an image in `pmem`. -/
def Host.init (pmem : ByteMem 32) : Host where
  pmem := pmem
  state := .running
  skipDifftest := false
  simTime := 0
  lastSimtime := 0
  curTrace := false
  mmioReads := []
  uart := []
  failed := false

end RV32Pipeline
