import RV32Pipeline.Rtl.Define

/-!
# The decoders of `mulcu_decoder.v`

`mulcu_decoder`, `ALU_decoder`, and `Imme_decoder`, for the configuration of `pipeline_config.v`
(`RV32M` and `HAS_ECALL` undefined). Each module is a function of the instruction word to a record
of its outputs. The input `ALU_ZERO` of `mulcu_decoder` drives nothing, and its output `ebreak` is
not assigned: the wire `ebreak_D` is the one that `Imme_decoder` drives.
-/

namespace RV32Pipeline

/-- The outputs of `ALU_decoder`: the operation that the opcode and the function fields select.
`funct7` is bit 30 of the instruction. -/
def aluDecoder (funct3 : BitVec 3) (funct7 : Bool) (opcode : BitVec 7) : BitVec 4 :=
  let calcuOp : BitVec 4 :=
    match funct3 with
    | 0b000#3 => if opcode = Opcode.rType then (if funct7 then AluOp.sub else AluOp.add) else AluOp.add
    | 0b001#3 => AluOp.sll
    | 0b010#3 => AluOp.slt
    | 0b011#3 => AluOp.sltu
    | 0b100#3 => AluOp.xor
    | 0b101#3 => if funct7 then AluOp.sra else AluOp.srl
    | 0b110#3 => AluOp.or
    | _ => AluOp.and
  if opcode = Opcode.rType then calcuOp
  else if opcode = Opcode.iType then calcuOp
  else if opcode = Opcode.store then AluOp.add
  else if opcode = Opcode.load then AluOp.add
  else if opcode = Opcode.bType then (if funct3.getLsbD 1 then AluOp.sltu else AluOp.slt)
  else if opcode = Opcode.auipc then AluOp.add
  else 0#4

/-- The outputs of `mulcu_decoder`. -/
structure MulcuDecoder where
  aluOp : BitVec 4
  rs1 : BitVec 5
  rs2 : BitVec 5
  rd : BitVec 5
  jal : Bool
  jalr : Bool
  branch : Bool
  regWen : Bool
  regRen : Bool
  aluDbSrc : Bool
  regSrc : BitVec 2
  memWen : Bool
  memRen : Bool
  auipc : Bool
  funct3 : BitVec 3
  csrRaddr : BitVec 12
  csrWaddr : BitVec 12
  csrCtrl : BitVec 2
  mret : Bool
  opcode : BitVec 7

/-- The module `mulcu_decoder`: the control signals of an instruction word. -/
def mulcuDecoder (instr : Word) : MulcuDecoder :=
  let opcode := instr.extractLsb' 0 7
  let funct3 := instr.extractLsb' 12 3
  let funct7 := instr.getLsbD 30
  let beq := opcode == Opcode.bType && funct3 == 0b000#3
  let bne := opcode == Opcode.bType && funct3 == 0b001#3
  let blt := opcode == Opcode.bType && funct3 == 0b100#3
  let bge := opcode == Opcode.bType && funct3 == 0b101#3
  let bltu := opcode == Opcode.bType && funct3 == 0b110#3
  let bgeu := opcode == Opcode.bType && funct3 == 0b111#3
  let csrrw := opcode == Opcode.csr && funct3 == 0b001#3
  let csrrs := opcode == Opcode.csr && funct3 == 0b010#3
  let mret := opcode == Opcode.csr && funct3 == 0b000#3 && instr.extractLsb' 20 12 == 0x302#12
  { aluOp := aluDecoder funct3 funct7 opcode
    rs1 := instr.extractLsb' 15 5
    rs2 := instr.extractLsb' 20 5
    rd := instr.extractLsb' 7 5
    jal := opcode == Opcode.jal
    jalr := opcode == Opcode.jalr
    branch := beq || bne || blt || bge || bltu || bgeu
    regWen := opcode == Opcode.rType || opcode == Opcode.iType || opcode == Opcode.load ||
      opcode == Opcode.jal || opcode == Opcode.jalr || opcode == Opcode.lui ||
      opcode == Opcode.auipc || opcode == Opcode.csr || csrrw || csrrs
    regRen := true
    aluDbSrc := opcode == Opcode.bType || opcode == Opcode.rType
    -- 00 selects the ALU, 01 the memory, 10 the return address, 11 the immediate.
    regSrc :=
      if opcode = Opcode.load then 0b01#2
      else if opcode = Opcode.jal then 0b10#2
      else if opcode = Opcode.jalr then 0b10#2
      else if opcode = Opcode.lui then 0b11#2
      else 0b00#2
    memWen := opcode == Opcode.store
    memRen := opcode == Opcode.load
    auipc := opcode == Opcode.auipc
    funct3 := funct3
    csrRaddr := if mret then 0x341#12 else instr.extractLsb' 20 12
    csrWaddr := instr.extractLsb' 20 12
    csrCtrl := BitVec.ofBool csrrw ++ BitVec.ofBool csrrs
    mret := mret
    opcode := opcode }

/-- The wires `type_D`, `type_E`, `type_M`, and `type_W`: bit 0 is `I_type`, bit 1 `U_type`, bit 2
`J_type`, bit 3 `B_type`, and bit 4 `S_type`. -/
structure InstrType where
  iType : Bool
  uType : Bool
  jType : Bool
  bType : Bool
  sType : Bool

/-- The reset value of the type wires. -/
def InstrType.zero : InstrType := ⟨false, false, false, false, false⟩

/-- The outputs of `Imme_decoder`. -/
structure ImmeDecoder where
  imme : Word
  type : InstrType
  ebreak : Bool

/-- The module `Imme_decoder`: the immediate of an instruction word and the format that it was read
in. `ebreak` is also raised by `j 0`, the word `0x0000006f`. -/
def immeDecoder (instr : Word) : ImmeDecoder :=
  let opcode := instr.extractLsb' 0 7
  let iType := opcode == Opcode.jalr || opcode == Opcode.load || opcode == Opcode.iType
  let uType := opcode == Opcode.lui || opcode == Opcode.auipc
  let jType := opcode == Opcode.jal
  let bType := opcode == Opcode.bType
  let sType := opcode == Opcode.store
  let iImme : Word := (instr.extractLsb' 20 12).signExtend 32
  let uImme : Word := instr.extractLsb' 12 20 ++ 0#12
  let jImme : Word := (instr.extractLsb' 31 1 ++ instr.extractLsb' 12 8 ++ instr.extractLsb' 20 1 ++
    instr.extractLsb' 21 10 ++ 0#1).signExtend 32
  let bImme : Word := (instr.extractLsb' 31 1 ++ instr.extractLsb' 7 1 ++ instr.extractLsb' 25 6 ++
    instr.extractLsb' 8 4 ++ 0#1).signExtend 32
  let sImme : Word := (instr.extractLsb' 25 7 ++ instr.extractLsb' 7 5).signExtend 32
  { imme :=
      if iType then iImme else if uType then uImme else if jType then jImme
      else if bType then bImme else if sType then sImme else 0#32
    type := ⟨iType, uType, jType, bType, sType⟩
    ebreak := instr == 0x00100073#32 || instr == 0x0000006f#32 }

end RV32Pipeline
