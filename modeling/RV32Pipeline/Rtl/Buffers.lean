import RV32Pipeline.Rtl.Decoder

/-!
# The stage buffers of `buffer_ctrl.v`

`buffer_F_D`, `buffer_D_E`, `buffer_E_M`, and `buffer_M_W`. The signals that a buffer carries for
its instruction are of two kinds: those that depend on the instruction word alone (`ControlE`,
`ControlM`, `ControlW`), and the data that the earlier stages computed.
-/

namespace RV32Pipeline

/-- The registers of `buffer_F_D`. -/
structure BufferFD where
  instrD : Word
  pcRegD : Word
  predictD : Bool
  btbHitD : Bool

/-- The buffer `buffer_F_D` after reset. -/
def BufferFD.reset : BufferFD := ⟨0#32, 0x80000000#32, false, false⟩

/-- The registers of `buffer_D_E` that depend on the instruction word alone. -/
structure ControlE where
  regWriteE : Bool
  resultSrcE : BitVec 2
  memWriteE : Bool
  memReadE : Bool
  jalE : Bool
  branchE : Bool
  aluControlE : BitVec 4
  aluSrcE : Bool
  auipcE : Bool
  funct3E : BitVec 3
  regRenE : Bool
  opcodeE : BitVec 7
  jalrE : Bool
  ebreakE : Bool
  typeE : InstrType
  immeE : Word
  rdE : BitVec 5
  rs1E : BitVec 5
  rs2E : BitVec 5
  csrWaddrE : BitVec 12
  csrCtrlE : BitVec 2
  mretE : Bool

/-- The registers of `buffer_D_E`. -/
structure BufferDE extends ControlE where
  predictE : Bool
  pcRegE : Word
  rdata1E : Word
  rdata2E : Word
  csrRdataE : Word

/-- The control registers of `buffer_D_E` after reset. -/
def ControlE.reset : ControlE where
  regWriteE := false
  resultSrcE := 0#2
  memWriteE := false
  memReadE := false
  jalE := false
  branchE := false
  aluControlE := 0#4
  aluSrcE := false
  auipcE := false
  funct3E := 0#3
  regRenE := false
  opcodeE := 0#7
  jalrE := false
  ebreakE := false
  typeE := InstrType.zero
  immeE := 0#32
  rdE := 0#5
  rs1E := 0#5
  rs2E := 0#5
  csrWaddrE := 0#12
  csrCtrlE := 0#2
  mretE := false

/-- The buffer `buffer_D_E` after reset: `csr_rdata_E` alone keeps its value. -/
def BufferDE.reset (b : BufferDE) : BufferDE where
  toControlE := ControlE.reset
  predictE := false
  pcRegE := 0x80000000#32
  rdata1E := 0#32
  rdata2E := 0#32
  csrRdataE := b.csrRdataE

/-- The wires that the decoders drive from D into the control registers of `buffer_D_E`. -/
def controlD (instr : Word) : ControlE :=
  let d := mulcuDecoder instr
  let m := immeDecoder instr
  { regWriteE := d.regWen
    resultSrcE := d.regSrc
    memWriteE := d.memWen
    memReadE := d.memRen
    jalE := d.jal
    branchE := d.branch
    aluControlE := d.aluOp
    aluSrcE := d.aluDbSrc
    auipcE := d.auipc
    funct3E := d.funct3
    regRenE := d.regRen
    opcodeE := d.opcode
    jalrE := d.jalr
    ebreakE := m.ebreak
    typeE := m.type
    immeE := m.imme
    rdE := d.rd
    rs1E := d.rs1
    rs2E := d.rs2
    csrWaddrE := d.csrWaddr
    csrCtrlE := d.csrCtrl
    mretE := d.mret }

/-- The registers of `buffer_E_M` that depend on the instruction word alone. -/
structure ControlM where
  regWriteM : Bool
  resultSrcM : BitVec 2
  memWriteM : Bool
  memReadM : Bool
  funct3M : BitVec 3
  ebreakM : Bool
  typeM : InstrType
  rdM : BitVec 5
  immeM : Word
  csrWaddrM : BitVec 12
  csrCtrlM : BitVec 2

/-- The registers of `buffer_E_M`. -/
structure BufferEM extends ControlM where
  aluResultM : Word
  writeDataM : Word
  pcRegM : Word
  src1M : Word
  csrRdataM : Word

/-- The buffer `buffer_E_M` after reset. -/
def BufferEM.reset : BufferEM where
  regWriteM := false
  resultSrcM := 0#2
  memWriteM := false
  memReadM := false
  funct3M := 0#3
  ebreakM := false
  typeM := InstrType.zero
  rdM := 0#5
  immeM := 0#32
  csrWaddrM := 0#12
  csrCtrlM := 0#2
  aluResultM := 0#32
  writeDataM := 0#32
  pcRegM := 0x80000000#32
  src1M := 0#32
  csrRdataM := 0#32

/-- The control signals that E hands to `buffer_E_M`. -/
def ControlE.toM (c : ControlE) : ControlM where
  regWriteM := c.regWriteE
  resultSrcM := c.resultSrcE
  memWriteM := c.memWriteE
  memReadM := c.memReadE
  funct3M := c.funct3E
  ebreakM := c.ebreakE
  typeM := c.typeE
  rdM := c.rdE
  immeM := c.immeE
  csrWaddrM := c.csrWaddrE
  csrCtrlM := c.csrCtrlE

/-- The registers of `buffer_M_W` that depend on the instruction word alone. -/
structure ControlW where
  regWriteW : Bool
  resultSrcW : BitVec 2
  funct3W : BitVec 3
  ebreakW : Bool
  typeW : InstrType
  rdW : BitVec 5
  immeW : Word
  csrWaddrW : BitVec 12
  csrCtrlW : BitVec 2

/-- The registers of `buffer_M_W`. -/
structure BufferMW extends ControlW where
  aluResultW : Word
  readDataW : Word
  pcRegW : Word
  src1W : Word
  csrRdataW : Word

/-- The buffer `buffer_M_W` after reset. -/
def BufferMW.reset : BufferMW where
  regWriteW := false
  resultSrcW := 0#2
  funct3W := 0#3
  ebreakW := false
  typeW := InstrType.zero
  rdW := 0#5
  immeW := 0#32
  csrWaddrW := 0#12
  csrCtrlW := 0#2
  aluResultW := 0#32
  readDataW := 0#32
  pcRegW := 0x80000000#32
  src1W := 0#32
  csrRdataW := 0#32

/-- The control signals that M hands to `buffer_M_W`. -/
def ControlM.toW (c : ControlM) : ControlW where
  regWriteW := c.regWriteM
  resultSrcW := c.resultSrcM
  funct3W := c.funct3M
  ebreakW := c.ebreakM
  typeW := c.typeM
  rdW := c.rdM
  immeW := c.immeM
  csrWaddrW := c.csrWaddrM
  csrCtrlW := c.csrCtrlM

/-- A buffer after a clock edge: the reset value, the new contents when it is enabled, or the old
contents. -/
def bufferNext {α : Type} (rst en : Bool) (resetVal new old : α) : α :=
  if rst then resetVal else if en then new else old

end RV32Pipeline
