import RV32Pipeline.Rtl.Define

/-!
# `RegisterFile.v`, `CSR.sv`, and `PC.v`
-/

namespace RV32Pipeline

/-- The array `rf` of the register file. Entry 0 can be written, but is never read. -/
abbrev RegisterFile := BitVec 5 → Word

namespace RegisterFile

/-- The outputs `rdata1` and `rdata2`. -/
def read (rf : RegisterFile) (ren : Bool) (raddr : BitVec 5) : Word :=
  if ren && raddr != 0#5 then rf raddr else 0#32

/-- The register file after a clock edge. -/
def next (rst wen : Bool) (waddr : BitVec 5) (wdata : Word) (rf : RegisterFile) : RegisterFile :=
  if rst then fun _ => 0#32 else if wen then Function.update rf waddr wdata else rf

theorem next_apply (rf : RegisterFile) (wen : Bool) (waddr : BitVec 5) (wdata : Word)
    (r : BitVec 5) :
    rf.next false wen waddr wdata r = if wen && waddr == r then wdata else rf r := by
  cases wen
  · rfl
  · by_cases hr : waddr = r
    · simp [next, hr]
    · simp [next, hr, Function.update_of_ne (Ne.symm hr)]

end RegisterFile

/-- The registers of the module `CSR`. -/
structure Csr where
  mtvec : Word
  mstatus : Word
  mepc : Word
  mcause : Word
  deriving DecidableEq

namespace Csr

/-- The wires `csr_ridx` and `csr_widx`: every address that is not implemented selects `mtvec`. -/
def idx (addr : BitVec 12) : BitVec 2 :=
  if addr = 0x305#12 then 0#2
  else if addr = 0x300#12 then 1#2
  else if addr = 0x341#12 then 2#2
  else if addr = 0x342#12 then 3#2
  else 0#2

theorem idx_cases (addr : BitVec 12) :
    idx addr = 0#2 ∨ idx addr = 1#2 ∨ idx addr = 2#2 ∨ idx addr = 3#2 := by
  generalize idx addr = k
  revert k
  decide

/-- The output `csr_rdata`. -/
def read (c : Csr) (csrRaddr : BitVec 12) : Word :=
  match idx csrRaddr with
  | 0b00#2 => c.mtvec
  | 0b01#2 => c.mstatus
  | 0b10#2 => c.mepc
  | _ => c.mcause

/-- The register that `csr_waddr` selects, replaced. -/
def write (c : Csr) (csrWaddr : BitVec 12) (csrWdata : Word) : Csr :=
  match idx csrWaddr with
  | 0b00#2 => { c with mtvec := csrWdata }
  | 0b01#2 => { c with mstatus := csrWdata }
  | 0b10#2 => { c with mepc := csrWdata }
  | _ => { c with mcause := csrWdata }

/-- The same write made twice has the effect of one. -/
theorem write_write (c : Csr) (csrWaddr : BitVec 12) (csrWdata : Word) :
    (c.write csrWaddr csrWdata).write csrWaddr csrWdata = c.write csrWaddr csrWdata := by
  rcases idx_cases csrWaddr with h | h | h | h <;> simp [write, h]

/-- A write leaves the registers at other indices as they are. -/
theorem read_write_of_ne (c : Csr) {csrWaddr csrRaddr : BitVec 12} (csrWdata : Word)
    (h : idx csrWaddr ≠ idx csrRaddr) :
    (c.write csrWaddr csrWdata).read csrRaddr = c.read csrRaddr := by
  rcases idx_cases csrWaddr with hw | hw | hw | hw <;>
    rcases idx_cases csrRaddr with hr | hr | hr | hr <;>
    first
    | exact absurd (hw.trans hr.symm) h
    | simp [write, read, hw, hr]

/-- The registers after reset. -/
def init : Csr := ⟨0#32, 0x1800#32, 0#32, 0#32⟩

/-- The registers after a clock edge. -/
def next (rst csrWe : Bool) (csrWaddr : BitVec 12) (csrWdata : Word) (c : Csr) : Csr :=
  if rst then init else if csrWe then c.write csrWaddr csrWdata else c

end Csr

/-- The register `PC_reg` after a clock edge. -/
def pcNext (rst validIn : Bool) (pcSrc pcReg : Word) : Word :=
  if rst then pcRst else if validIn then pcSrc else pcReg

end RV32Pipeline
