import RV32Pipeline.Rtl.Alu
import RV32Pipeline.Rtl.Buffers

/-!
# The logic between the stage buffers in `datapath.v`

The combinational wires of the execute, the load and store, and the write-back stages, as functions
of the buffer that feeds the stage and of the operands that reach it. They mention no other state,
so a machine that executes one instruction at a time can be built from them too.
-/

namespace RV32Pipeline

/-! ## The inputs of `buffer_D_E` -/

/-- What D hands to `buffer_D_E` for an instruction word, given what the register file and the CSR
module read for it. -/
def bufferDEIn (instr pc : Word) (predict : Bool) (rdata1 rdata2 csrRdata : Word) : BufferDE where
  toControlE := controlD instr
  predictE := predict
  pcRegE := pc
  rdata1E := rdata1
  rdata2E := rdata2
  csrRdataE := csrRdata

namespace BufferDE

variable (b : BufferDE) (src1E src2 : Word)

/-! ## The execute stage -/

/-- The wire `ALU_DA`. -/
def aluDA : Word := if b.regRenE then (if b.auipcE then b.pcRegE else src1E) else 0#32

/-- The wire `ALU_DB`. -/
def aluDB : Word := if b.aluSrcE then src2 else b.immeE

/-- The instance `ALU1`. -/
def alu1 : Alu := alu (b.aluDA src1E) (b.aluDB src2) b.aluControlE

/-- The wire `ALUResult_E`. -/
def aluResultE : Word :=
  match b.resultSrcE with
  | 0b10#2 => b.pcRegE + 4#32
  | 0b11#2 => b.immeE
  | _ => (b.alu1 src1E src2).aluDC

/-- The wire `branch_true`. -/
def branchTrue : Bool :=
  let zero := (b.alu1 src1E src2).aluZero
  let less := (b.aluResultE src1E src2).getLsbD 0
  (b.opcodeE == Opcode.bType && b.funct3E == 0b000#3 && zero) ||
    (b.opcodeE == Opcode.bType && b.funct3E == 0b001#3 && !zero) ||
    (b.opcodeE == Opcode.bType && b.funct3E == 0b100#3 && less) ||
    (b.opcodeE == Opcode.bType && b.funct3E == 0b101#3 && !less) ||
    (b.opcodeE == Opcode.bType && b.funct3E == 0b110#3 && less) ||
    (b.opcodeE == Opcode.bType && b.funct3E == 0b111#3 && !less)

/-- The wire `Jump_sign`. -/
def jumpSign : Bool := b.jalrE || b.jalE || (b.branchE && b.branchTrue src1E src2)

/-- The wire `PC_jump`. -/
def pcJump : Word := b.pcRegE + b.immeE

/-- The wire `PC_jalr`. -/
def pcJalr : Word := b.immeE + b.aluDA src1E

/-- The wire `Pre_Wrong`, with `Predict` defined. -/
def preWrong : Bool := (b.predictE ^^ b.jumpSign src1E src2) || b.mretE

/-- The target of a taken branch or jump, as `PC_correction_path` selects it. -/
def jumpTarget : Word := if b.jalrE then b.pcJalr src1E else b.pcJump

/-- The wire `PC_correction_path`. -/
def pcCorrectionPath : Word :=
  if b.mretE then b.csrRdataE
  else if b.jumpSign src1E src2 then b.jumpTarget src1E
  else b.pcRegE + 4#32

/-- What E hands to `buffer_E_M`. -/
def emIn : BufferEM where
  toControlM := b.toControlE.toM
  aluResultM := b.aluResultE src1E src2
  writeDataM := src2
  pcRegM := b.pcRegE
  src1M := src1E
  csrRdataM := b.csrRdataE

end BufferDE

/-! ## The load and store stage -/

namespace BufferEM

variable (b : BufferEM) (readDataM : Word)

/-- The wire `rdata_M`: the bytes that a load keeps of the word that it read. -/
def rdataM : Word :=
  match b.funct3M with
  | 0b000#3 => (readDataM.extractLsb' 0 8).signExtend 32
  | 0b001#3 => (readDataM.extractLsb' 0 16).signExtend 32
  | 0b010#3 => readDataM
  | 0b100#3 => (readDataM.extractLsb' 0 8).setWidth 32
  | 0b101#3 => (readDataM.extractLsb' 0 16).setWidth 32
  | _ => readDataM

/-- The wire `wmask`. -/
def wmask : BitVec 4 :=
  match b.funct3M.extractLsb' 0 2 with
  | 0b00#2 => 0x1#4
  | 0b01#2 => 0x3#4
  | 0b10#2 => 0xf#4
  | _ => 0x0#4

/-- What M hands to `buffer_M_W`. -/
def mwIn : BufferMW where
  toControlW := b.toControlM.toW
  aluResultW := b.aluResultM
  readDataW := b.rdataM readDataM
  pcRegW := b.pcRegM
  src1W := b.src1M
  csrRdataW := b.csrRdataM

end BufferEM

/-! ## The write-back stage -/

namespace BufferMW

variable (b : BufferMW)

/-- The wire `csr_wen_W`. -/
def csrWenW : Bool := b.csrCtrlW != 0#2

/-- The wire `wdata_raw`. -/
def wdataRaw : Word := if b.resultSrcW = 0b01#2 then b.readDataW else b.aluResultW

/-- The wire `wdata`. -/
def wdata : Word := if b.csrWenW then b.csrRdataW else b.wdataRaw

/-- The wire `csr_wdata_W`: `csrrs` sets bits, and `csrrw` replaces the register. -/
def csrWdataW : Word :=
  match b.csrCtrlW with
  | 0b01#2 => b.src1W ||| b.csrRdataW
  | 0b10#2 => b.src1W
  | _ => 0#32

end BufferMW

end RV32Pipeline
