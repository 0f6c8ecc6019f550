import Mathlib.Data.BitVec

/-!
# Constants of `define.v`

The opcodes, the ALU operation codes, and the addresses that the Verilog modules share. A wire or
register of `n` bits is a `BitVec n`, and a one-bit wire is a `Bool`.
-/

namespace RV32Pipeline

/-- A 32-bit word of the datapath. -/
abbrev Word := BitVec 32

/-- Indices into the registers, and into other arrays of 32 elements, have literals. -/
instance neZeroThirtyTwo : NeZero 32 := ⟨by decide⟩

namespace Opcode

/-- The opcode `lui`. -/
def lui : BitVec 7 := 0b0110111#7

/-- The opcode `auipc`. -/
def auipc : BitVec 7 := 0b0010111#7

/-- The opcode `jal`. -/
def jal : BitVec 7 := 0b1101111#7

/-- The opcode `jalr`. -/
def jalr : BitVec 7 := 0b1100111#7

/-- The opcode `B_type`, of the conditional branches. -/
def bType : BitVec 7 := 0b1100011#7

/-- The opcode `load`. -/
def load : BitVec 7 := 0b0000011#7

/-- The opcode `store`. -/
def store : BitVec 7 := 0b0100011#7

/-- The opcode `I_type`, of the register-immediate operations. -/
def iType : BitVec 7 := 0b0010011#7

/-- The opcode `R_type`, of the register-register operations. -/
def rType : BitVec 7 := 0b0110011#7

/-- The opcode `CSR_OPCODE`, of the system instructions. -/
def csr : BitVec 7 := 0b1110011#7

end Opcode

namespace AluOp

/-- The ALU operation `ADD`. -/
def add : BitVec 4 := 0#4

/-- The ALU operation `SUB`. -/
def sub : BitVec 4 := 1#4

/-- The ALU operation `SLTU`. -/
def sltu : BitVec 4 := 10#4

/-- The ALU operation `SLT`. -/
def slt : BitVec 4 := 11#4

/-- The ALU operation `SLL`. -/
def sll : BitVec 4 := 5#4

/-- The ALU operation `SRL`. -/
def srl : BitVec 4 := 6#4

/-- The ALU operation `SRA`. -/
def sra : BitVec 4 := 7#4

/-- The ALU operation `AND`. -/
def and : BitVec 4 := 12#4

/-- The ALU operation `OR`. -/
def or : BitVec 4 := 13#4

/-- The ALU operation `XOR`. -/
def xor : BitVec 4 := 14#4

end AluOp

/-- The constant `PC_rst`, the reset value of the fetch PC. -/
def pcRst : Word := 0x80000000#32

/-- The address `UART_DATA_ADDR`. -/
def uartDataAddr : Word := 0xa00003f8#32

/-- The address `UART_CTRL_ADDR`. -/
def uartCtrlAddr : Word := 0xa00003fc#32

end RV32Pipeline
