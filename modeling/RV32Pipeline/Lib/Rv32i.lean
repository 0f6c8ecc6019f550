import Mathlib.Data.BitVec
import Mathlib.Tactic.Common
import Mathlib.Tactic.IntervalCases

/-!
# The instruction set RV32I

The 37 integer, load, store, branch, and jump instructions of the base instruction set: their
syntax, their encodings, and what one of them does to the registers, the PC, and the memory. An
encoding is assembled from the six fields that an instruction word of any format has at the same
places; the immediates of the formats are spread over these fields.
-/

namespace Rv32i

/-- A 32-bit word. -/
abbrev Word := BitVec 32

/-- The number of a register. -/
abbrev Reg := BitVec 5

/-! ## Syntax -/

/-- The conditions of the branches. -/
inductive BranchOp where
  | beq
  | bne
  | blt
  | bge
  | bltu
  | bgeu
  deriving DecidableEq

/-- The widths of the loads, with their extensions. -/
inductive LoadOp where
  | lb
  | lh
  | lw
  | lbu
  | lhu
  deriving DecidableEq

/-- The widths of the stores. -/
inductive StoreOp where
  | sb
  | sh
  | sw
  deriving DecidableEq

/-- The operations with an immediate of 12 bits. -/
inductive ImmOp where
  | addi
  | slti
  | sltiu
  | xori
  | ori
  | andi
  deriving DecidableEq

/-- The shifts by an immediate. -/
inductive ShiftOp where
  | slli
  | srli
  | srai
  deriving DecidableEq

/-- The operations on two registers. -/
inductive RegOp where
  | add
  | sub
  | sll
  | slt
  | sltu
  | xor
  | srl
  | sra
  | or
  | and
  deriving DecidableEq

/-- The instructions. The immediate of a branch stands for the bits 12 to 1 of its offset, and that
of a `jal` for the bits 20 to 1. -/
inductive Instr where
  | lui (rd : Reg) (imm : BitVec 20)
  | auipc (rd : Reg) (imm : BitVec 20)
  | jal (rd : Reg) (imm : BitVec 20)
  | jalr (rd rs1 : Reg) (imm : BitVec 12)
  | branch (op : BranchOp) (rs1 rs2 : Reg) (imm : BitVec 12)
  | load (op : LoadOp) (rd rs1 : Reg) (imm : BitVec 12)
  | store (op : StoreOp) (rs1 rs2 : Reg) (imm : BitVec 12)
  | opImm (op : ImmOp) (rd rs1 : Reg) (imm : BitVec 12)
  | shiftImm (op : ShiftOp) (rd rs1 : Reg) (shamt : BitVec 5)
  | opReg (op : RegOp) (rd rs1 rs2 : Reg)
  deriving DecidableEq

/-! ## Encodings -/

/-- The instruction word with the given fields. -/
def assemble (funct7 : BitVec 7) (rs2 rs1 : Reg) (funct3 : BitVec 3) (rd : Reg)
    (opcode : BitVec 7) : Word :=
  funct7 ++ rs2 ++ rs1 ++ funct3 ++ rd ++ opcode

section Fields

variable (funct7 : BitVec 7) (rs2 rs1 : Reg) (funct3 : BitVec 3) (rd : Reg) (opcode : BitVec 7)

/-- The bits of an instruction word. -/
theorem getLsbD_assemble (k : ℕ) : (assemble funct7 rs2 rs1 funct3 rd opcode).getLsbD k =
    if k < 7 then opcode.getLsbD k
    else if k < 12 then rd.getLsbD (k - 7)
    else if k < 15 then funct3.getLsbD (k - 12)
    else if k < 20 then rs1.getLsbD (k - 15)
    else if k < 25 then rs2.getLsbD (k - 20)
    else funct7.getLsbD (k - 25) := by
  change (funct7 ++ rs2 ++ rs1 ++ funct3 ++ rd ++ opcode : BitVec (7 + 5 + 5 + 3 + 5 + 7)).getLsbD k =
    _
  simp only [BitVec.getLsbD_append]
  split_ifs <;> first | rfl | omega

@[simp]
theorem opcode_assemble : (assemble funct7 rs2 rs1 funct3 rd opcode).extractLsb' 0 7 = opcode := by
  apply BitVec.eq_of_getLsbD_eq
  intro k hk
  rw [BitVec.getLsbD_extractLsb', getLsbD_assemble, if_pos (by omega), Nat.zero_add]
  simp [hk]

@[simp]
theorem rd_assemble : (assemble funct7 rs2 rs1 funct3 rd opcode).extractLsb' 7 5 = rd := by
  apply BitVec.eq_of_getLsbD_eq
  intro k hk
  rw [BitVec.getLsbD_extractLsb', getLsbD_assemble, if_neg (by omega), if_pos (by omega),
    Nat.add_sub_cancel_left]
  simp [hk]

@[simp]
theorem funct3_assemble :
    (assemble funct7 rs2 rs1 funct3 rd opcode).extractLsb' 12 3 = funct3 := by
  apply BitVec.eq_of_getLsbD_eq
  intro k hk
  rw [BitVec.getLsbD_extractLsb', getLsbD_assemble, if_neg (by omega), if_neg (by omega),
    if_pos (by omega), Nat.add_sub_cancel_left]
  simp [hk]

@[simp]
theorem rs1_assemble : (assemble funct7 rs2 rs1 funct3 rd opcode).extractLsb' 15 5 = rs1 := by
  apply BitVec.eq_of_getLsbD_eq
  intro k hk
  rw [BitVec.getLsbD_extractLsb', getLsbD_assemble, if_neg (by omega), if_neg (by omega),
    if_neg (by omega), if_pos (by omega), Nat.add_sub_cancel_left]
  simp [hk]

@[simp]
theorem rs2_assemble : (assemble funct7 rs2 rs1 funct3 rd opcode).extractLsb' 20 5 = rs2 := by
  apply BitVec.eq_of_getLsbD_eq
  intro k hk
  rw [BitVec.getLsbD_extractLsb', getLsbD_assemble, if_neg (by omega), if_neg (by omega),
    if_neg (by omega), if_neg (by omega), if_pos (by omega), Nat.add_sub_cancel_left]
  simp [hk]

/-- Bit 30 tells `sub` from `add`, and the right shifts apart. -/
@[simp]
theorem bit30_assemble :
    (assemble funct7 rs2 rs1 funct3 rd opcode).getLsbD 30 = funct7.getLsbD 5 := by
  rw [getLsbD_assemble]
  rfl

end Fields

/-- A register-register operation. -/
def rType (funct7 : BitVec 7) (rs2 rs1 : Reg) (funct3 : BitVec 3) (rd : Reg) (opcode : BitVec 7) :
    Word := assemble funct7 rs2 rs1 funct3 rd opcode

/-- The immediate format: bits 31 to 20 are the immediate. -/
def iType (imm : BitVec 12) (rs1 : Reg) (funct3 : BitVec 3) (rd : Reg) (opcode : BitVec 7) : Word :=
  assemble (imm.extractLsb' 5 7) (imm.extractLsb' 0 5) rs1 funct3 rd opcode

/-- The store format: the low bits of the immediate are in the field of the destination. -/
def sType (imm : BitVec 12) (rs2 rs1 : Reg) (funct3 : BitVec 3) (opcode : BitVec 7) : Word :=
  assemble (imm.extractLsb' 5 7) rs2 rs1 funct3 (imm.extractLsb' 0 5) opcode

/-- The branch format, of the offset bits 12 to 1: 12 and 10 to 5 are above the registers, 4 to 1
and 11 below. -/
def bType (imm : BitVec 12) (rs2 rs1 : Reg) (funct3 : BitVec 3) (opcode : BitVec 7) : Word :=
  assemble (imm.extractLsb' 11 1 ++ imm.extractLsb' 4 6) rs2 rs1 funct3
    (imm.extractLsb' 0 4 ++ imm.extractLsb' 10 1) opcode

/-- The upper format: bits 31 to 12 are the immediate. -/
def uType (imm : BitVec 20) (rd : Reg) (opcode : BitVec 7) : Word :=
  assemble (imm.extractLsb' 13 7) (imm.extractLsb' 8 5) (imm.extractLsb' 3 5)
    (imm.extractLsb' 0 3) rd opcode

/-- The jump format, of the offset bits 20 to 1: 20, 10 to 1, 11, and 19 to 12, in this order. -/
def jType (imm : BitVec 20) (rd : Reg) (opcode : BitVec 7) : Word :=
  uType (imm.extractLsb' 19 1 ++ imm.extractLsb' 0 10 ++ imm.extractLsb' 10 1 ++
    imm.extractLsb' 11 8) rd opcode

/-! ### The immediates, read back from their formats -/

section Immediates

variable (rs2 rs1 rd : Reg) (funct3 : BitVec 3) (opcode : BitVec 7)

theorem imm_iType (imm : BitVec 12) :
    (iType imm rs1 funct3 rd opcode).extractLsb' 20 12 = imm := by
  apply BitVec.eq_of_getLsbD_eq
  intro k hk
  unfold iType
  rw [BitVec.getLsbD_extractLsb', getLsbD_assemble, if_neg (by omega), if_neg (by omega),
    if_neg (by omega), if_neg (by omega)]
  split_ifs with h
  · rw [BitVec.getLsbD_extractLsb', Nat.add_sub_cancel_left]
    simp [hk, show k < 5 by omega]
  · rw [BitVec.getLsbD_extractLsb', show 5 + (20 + k - 25) = k by omega]
    simp [hk, show 20 + k - 25 < 7 by omega]

theorem imm_sType (imm : BitVec 12) : (sType imm rs2 rs1 funct3 opcode).extractLsb' 25 7 ++
    (sType imm rs2 rs1 funct3 opcode).extractLsb' 7 5 = imm := by
  apply BitVec.eq_of_getLsbD_eq
  intro k hk
  unfold sType
  rw [BitVec.getLsbD_append, rd_assemble]
  split_ifs with h
  · rw [BitVec.getLsbD_extractLsb']
    simp [h]
  · rw [BitVec.getLsbD_extractLsb', getLsbD_assemble, if_neg (by omega), if_neg (by omega),
      if_neg (by omega), if_neg (by omega), if_neg (by omega), BitVec.getLsbD_extractLsb',
      show 5 + (25 + (k - 5) - 25) = k by omega]
    simp [show k - 5 < 7 by omega]

theorem imm_uType (imm : BitVec 20) : (uType imm rd opcode).extractLsb' 12 20 = imm := by
  apply BitVec.eq_of_getLsbD_eq
  intro k hk
  unfold uType
  rw [BitVec.getLsbD_extractLsb', getLsbD_assemble, if_neg (by omega), if_neg (by omega)]
  simp only [BitVec.getLsbD_extractLsb']
  split_ifs with h1 h2 h3
  · simp [hk, show k < 3 by omega]
  · simp [hk, show 12 + k - 15 < 5 by omega, show 3 + (12 + k - 15) = k by omega]
  · simp [hk, show 12 + k - 20 < 5 by omega, show 8 + (12 + k - 20) = k by omega]
  · simp [hk, show 12 + k - 25 < 7 by omega, show 13 + (12 + k - 25) = k by omega]

theorem imm_bType (imm : BitVec 12) :
    (bType imm rs2 rs1 funct3 opcode).extractLsb' 31 1 ++
      (bType imm rs2 rs1 funct3 opcode).extractLsb' 7 1 ++
      (bType imm rs2 rs1 funct3 opcode).extractLsb' 25 6 ++
      (bType imm rs2 rs1 funct3 opcode).extractLsb' 8 4 ++ 0#1 = imm ++ 0#1 := by
  apply BitVec.eq_of_getLsbD_eq
  intro k hk
  unfold bType
  simp only [BitVec.getLsbD_append, BitVec.getLsbD_extractLsb', getLsbD_assemble]
  interval_cases k <;> rfl

theorem imm_jType (imm : BitVec 20) :
    (jType imm rd opcode).extractLsb' 31 1 ++ (jType imm rd opcode).extractLsb' 12 8 ++
      (jType imm rd opcode).extractLsb' 20 1 ++ (jType imm rd opcode).extractLsb' 21 10 ++ 0#1 =
      imm ++ 0#1 := by
  apply BitVec.eq_of_getLsbD_eq
  intro k hk
  unfold jType uType
  simp only [BitVec.getLsbD_append, BitVec.getLsbD_extractLsb', getLsbD_assemble]
  interval_cases k <;> rfl

end Immediates

/-! ### The fields that select the operation -/

/-- The field `funct3` of a branch. -/
def BranchOp.funct3 : BranchOp → BitVec 3
  | .beq => 0b000#3
  | .bne => 0b001#3
  | .blt => 0b100#3
  | .bge => 0b101#3
  | .bltu => 0b110#3
  | .bgeu => 0b111#3

/-- The field `funct3` of a load. -/
def LoadOp.funct3 : LoadOp → BitVec 3
  | .lb => 0b000#3
  | .lh => 0b001#3
  | .lw => 0b010#3
  | .lbu => 0b100#3
  | .lhu => 0b101#3

/-- The field `funct3` of a store. -/
def StoreOp.funct3 : StoreOp → BitVec 3
  | .sb => 0b000#3
  | .sh => 0b001#3
  | .sw => 0b010#3

/-- The field `funct3` of an operation on registers. -/
def RegOp.funct3 : RegOp → BitVec 3
  | .add => 0b000#3
  | .sub => 0b000#3
  | .sll => 0b001#3
  | .slt => 0b010#3
  | .sltu => 0b011#3
  | .xor => 0b100#3
  | .srl => 0b101#3
  | .sra => 0b101#3
  | .or => 0b110#3
  | .and => 0b111#3

/-- The field `funct7` of an operation on registers. -/
def RegOp.funct7 : RegOp → BitVec 7
  | .sub => 0b0100000#7
  | .sra => 0b0100000#7
  | _ => 0b0000000#7

/-- The operation on registers that an operation with an immediate applies to it. -/
def ImmOp.toRegOp : ImmOp → RegOp
  | .addi => .add
  | .slti => .slt
  | .sltiu => .sltu
  | .xori => .xor
  | .ori => .or
  | .andi => .and

/-- The operation on registers that a shift by an immediate applies to it. -/
def ShiftOp.toRegOp : ShiftOp → RegOp
  | .slli => .sll
  | .srli => .srl
  | .srai => .sra

/-- The encoding of an instruction. -/
def Instr.encode : Instr → Word
  | lui rd imm => uType imm rd 0b0110111#7
  | auipc rd imm => uType imm rd 0b0010111#7
  | jal rd imm => jType imm rd 0b1101111#7
  | jalr rd rs1 imm => iType imm rs1 0b000#3 rd 0b1100111#7
  | branch op rs1 rs2 imm => bType imm rs2 rs1 op.funct3 0b1100011#7
  | load op rd rs1 imm => iType imm rs1 op.funct3 rd 0b0000011#7
  | store op rs1 rs2 imm => sType imm rs2 rs1 op.funct3 0b0100011#7
  | opImm op rd rs1 imm => iType imm rs1 op.toRegOp.funct3 rd 0b0010011#7
  | shiftImm op rd rs1 shamt =>
    assemble op.toRegOp.funct7 shamt rs1 op.toRegOp.funct3 rd 0b0010011#7
  | opReg op rd rs1 rs2 => rType op.funct7 rs2 rs1 op.funct3 rd 0b0110011#7

/-! ## Semantics -/

/-- Whether a branch is taken. -/
def BranchOp.taken (op : BranchOp) (x y : Word) : Bool :=
  match op with
  | .beq => x == y
  | .bne => x != y
  | .blt => x.slt y
  | .bge => !x.slt y
  | .bltu => x.ult y
  | .bgeu => !x.ult y

/-- What a load keeps of the four bytes at its address. -/
def LoadOp.extend (op : LoadOp) (mem : Word) : Word :=
  match op with
  | .lb => (mem.setWidth 8).signExtend 32
  | .lh => (mem.setWidth 16).signExtend 32
  | .lw => mem
  | .lbu => (mem.setWidth 8).setWidth 32
  | .lhu => (mem.setWidth 16).setWidth 32

/-- The number of bytes that a store writes. -/
def StoreOp.bytes : StoreOp → ℕ
  | .sb => 1
  | .sh => 2
  | .sw => 4

/-- The result of an operation on registers. A shift uses the low five bits of its second
operand. -/
def RegOp.eval (op : RegOp) (x y : Word) : Word :=
  match op with
  | .add => x + y
  | .sub => x - y
  | .sll => x <<< (y.toNat % 32)
  | .slt => if x.slt y then 1#32 else 0#32
  | .sltu => if x.ult y then 1#32 else 0#32
  | .xor => x ^^^ y
  | .srl => x >>> (y.toNat % 32)
  | .sra => x.sshiftRight (y.toNat % 32)
  | .or => x ||| y
  | .and => x &&& y

/-- What a store writes: the address, the word whose low bytes it writes, and the mask of these
bytes. -/
structure Store where
  addr : Word
  data : Word
  mask : BitVec 4

/-- What an instruction does: the destination register and its value, the next PC, the address that
it reads four bytes from, and what it stores. -/
structure Effect where
  dest : Option (Reg × Word)
  nextPc : Word
  load : Option Word
  store : Option Store

/-- The first source register, or `x0` if there is none. -/
def Instr.rs1 : Instr → Reg
  | lui _ _ => 0#5
  | auipc _ _ => 0#5
  | jal _ _ => 0#5
  | jalr _ rs1 _ => rs1
  | branch _ rs1 _ _ => rs1
  | load _ _ rs1 _ => rs1
  | store _ rs1 _ _ => rs1
  | opImm _ _ rs1 _ => rs1
  | shiftImm _ _ rs1 _ => rs1
  | opReg _ _ rs1 _ => rs1

/-- The second source register, or `x0` if there is none. -/
def Instr.rs2 : Instr → Reg
  | branch _ _ rs2 _ => rs2
  | store _ _ rs2 _ => rs2
  | opReg _ _ _ rs2 => rs2
  | _ => 0#5

/-- The first source register, if the format has one. -/
def Instr.source1 : Instr → Option Reg
  | lui _ _ => none
  | auipc _ _ => none
  | jal _ _ => none
  | jalr _ rs1 _ => some rs1
  | branch _ rs1 _ _ => some rs1
  | load _ _ rs1 _ => some rs1
  | store _ rs1 _ _ => some rs1
  | opImm _ _ rs1 _ => some rs1
  | shiftImm _ _ rs1 _ => some rs1
  | opReg _ _ rs1 _ => some rs1

/-- The second source register, if the format has one. -/
def Instr.source2 : Instr → Option Reg
  | branch _ _ rs2 _ => some rs2
  | store _ _ rs2 _ => some rs2
  | opReg _ _ _ rs2 => some rs2
  | _ => none

/-- The field of the first source register. -/
theorem Instr.rs1_encode {i : Instr} {r : Reg} (h : i.source1 = some r) :
    i.encode.extractLsb' 15 5 = r := by
  cases i <;> cases h <;> exact rs1_assemble ..

/-- The field of the second source register. -/
theorem Instr.rs2_encode {i : Instr} {r : Reg} (h : i.source2 = some r) :
    i.encode.extractLsb' 20 5 = r := by
  cases i <;> cases h <;> exact rs2_assemble ..

/-- What an instruction at `pc` does when its source registers hold `x` and `y`, and the memory
answers its read with `mem`. -/
def Instr.exec (i : Instr) (pc x y mem : Word) : Effect :=
  match i with
  | lui rd imm => ⟨some (rd, imm ++ 0#12), pc + 4#32, none, none⟩
  | auipc rd imm => ⟨some (rd, pc + (imm ++ 0#12)), pc + 4#32, none, none⟩
  | jal rd imm => ⟨some (rd, pc + 4#32), pc + (imm ++ 0#1).signExtend 32, none, none⟩
  | jalr rd _ imm => ⟨some (rd, pc + 4#32), (x + imm.signExtend 32) &&& ~~~1#32, none, none⟩
  | branch op _ _ imm =>
    ⟨none, if op.taken x y then pc + (imm ++ 0#1).signExtend 32 else pc + 4#32, none, none⟩
  | load op rd _ imm =>
    ⟨some (rd, op.extend mem), pc + 4#32, some (x + imm.signExtend 32), none⟩
  | store op _ _ imm =>
    ⟨none, pc + 4#32, none,
      some ⟨x + imm.signExtend 32, y, BitVec.ofNat 4 (2 ^ op.bytes - 1)⟩⟩
  | opImm op rd _ imm =>
    ⟨some (rd, op.toRegOp.eval x (imm.signExtend 32)), pc + 4#32, none, none⟩
  | shiftImm op rd _ shamt =>
    ⟨some (rd, op.toRegOp.eval x (shamt.setWidth 32)), pc + 4#32, none, none⟩
  | opReg op rd _ _ => ⟨some (rd, op.eval x y), pc + 4#32, none, none⟩

/-- The target of a `jalr` is even before bit 0 is cleared. -/
def Instr.EvenTarget (i : Instr) (x : Word) : Prop :=
  match i with
  | jalr _ _ imm => (x + imm.signExtend 32).getLsbD 0 = false
  | _ => True

/-- Clearing bit 0 of an even word changes nothing. -/
theorem clear_bit_zero {x : Word} (h : x.getLsbD 0 = false) : x &&& ~~~1#32 = x := by
  apply BitVec.eq_of_getLsbD_eq
  intro k hk
  rw [BitVec.getLsbD_and, BitVec.getLsbD_not]
  rcases Nat.eq_zero_or_pos k with rfl | hpos
  · rw [h, Bool.false_and]
  · have h1 : (1#32).getLsbD k = false := by
      rw [BitVec.getLsbD_one]
      simp [show k ≠ 0 by omega]
    rw [h1]
    simp [hk]

end Rv32i
