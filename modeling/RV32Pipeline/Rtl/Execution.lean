import RV32Pipeline.Rtl.AluSpec
import RV32Pipeline.Rtl.Stages

/-!
# The execution functions implement RV32I

The decoders and the logic between the stage buffers, from the word that D holds to what W writes
back, as one function of the instruction word, the PC, the operands, and the word that the memory
returned (`execute`), against the semantics of the instruction set.
-/

namespace RV32Pipeline

open Rv32i

/-- What the stages do with the contents of `buffer_D_E`: the write to the register file, the next
PC, and the transactions on the data bus. -/
def execute (b : BufferDE) (src1E src2 readDataM : Word) : Rv32i.Effect :=
  let em := b.emIn src1E src2
  let mw := em.mwIn readDataM
  { dest := if mw.regWriteW then some (mw.rdW, mw.wdata) else none
    nextPc := b.pcCorrectionPath src1E src2
    load := if em.memReadM then some em.aluResultM else none
    store := if em.memWriteM then some ⟨em.aluResultM, em.writeDataM, em.wmask⟩ else none }

/-! ## The immediates -/

section Imme

variable (rs2 rs1 rd : Reg) (funct3 : BitVec 3)

theorem imme_iType (imm : BitVec 12) {opcode : BitVec 7}
    (h : opcode = Opcode.jalr ∨ opcode = Opcode.load ∨ opcode = Opcode.iType) :
    (immeDecoder (iType imm rs1 funct3 rd opcode)).imme = imm.signExtend 32 := by
  have hop : (iType imm rs1 funct3 rd opcode).extractLsb' 0 7 = opcode := opcode_assemble ..
  unfold immeDecoder
  simp only [hop, imm_iType]
  rcases h with rfl | rfl | rfl <;> rfl

theorem imme_sType (imm : BitVec 12) :
    (immeDecoder (sType imm rs2 rs1 funct3 Opcode.store)).imme = imm.signExtend 32 := by
  have hop : (sType imm rs2 rs1 funct3 Opcode.store).extractLsb' 0 7 = Opcode.store :=
    opcode_assemble ..
  unfold immeDecoder
  simp only [hop, imm_sType]
  rfl

theorem imme_bType (imm : BitVec 12) :
    (immeDecoder (Rv32i.bType imm rs2 rs1 funct3 Opcode.bType)).imme =
      (imm ++ 0#1).signExtend 32 := by
  have hop : (Rv32i.bType imm rs2 rs1 funct3 Opcode.bType).extractLsb' 0 7 = Opcode.bType :=
    opcode_assemble ..
  unfold immeDecoder
  simp only [hop, imm_bType]
  rfl

theorem imme_uType (imm : BitVec 20) {opcode : BitVec 7}
    (h : opcode = Opcode.lui ∨ opcode = Opcode.auipc) :
    (immeDecoder (uType imm rd opcode)).imme = imm ++ 0#12 := by
  have hop : (uType imm rd opcode).extractLsb' 0 7 = opcode := opcode_assemble ..
  unfold immeDecoder
  simp only [hop, imm_uType]
  rcases h with rfl | rfl <;> rfl

theorem imme_jType (imm : BitVec 20) :
    (immeDecoder (jType imm rd Opcode.jal)).imme = (imm ++ 0#1).signExtend 32 := by
  have hop : (jType imm rd Opcode.jal).extractLsb' 0 7 = Opcode.jal := opcode_assemble ..
  unfold immeDecoder
  simp only [hop, imm_jType]
  rfl

end Imme

/-! ## The stages of an instruction without CSRs -/

/-- An instruction without a CSR writes back the result or what it loaded. -/
theorem execute_of_csrCtrlE {b : BufferDE} (hc : b.csrCtrlE = 0#2) (x y mem : Word) :
    execute b x y mem =
      { dest := if b.regWriteE then
          some (b.rdE, if b.resultSrcE = 0b01#2 then (b.emIn x y).rdataM mem else b.aluResultE x y)
          else none
        nextPc := b.pcCorrectionPath x y
        load := if b.memReadE then some (b.aluResultE x y) else none
        store := if b.memWriteE then some ⟨b.aluResultE x y, y, (b.emIn x y).wmask⟩ else none } := by
  have hw : ((b.emIn x y).mwIn mem).csrWenW = false := by
    show (b.csrCtrlE != 0#2) = false
    rw [hc]
    rfl
  unfold execute
  simp only [BufferMW.wdata, hw]
  rfl

/-- Only system instructions touch a CSR. -/
theorem csrCtrlE_of_ne {w : Word} (h : w.extractLsb' 0 7 ≠ Opcode.csr) :
    (controlD w).csrCtrlE = 0#2 := by
  have hb : (w.extractLsb' 0 7 == Opcode.csr) = false := beq_eq_false_iff_ne.mpr h
  unfold controlD mulcuDecoder
  simp only [hb, Bool.false_and]
  rfl

/-- The load extension keeps what the instruction set keeps. -/
theorem rdataM_of_funct3M {b : BufferEM} {op : LoadOp} (hf : b.funct3M = op.funct3) (mem : Word) :
    b.rdataM mem = op.extend mem := by
  have h8 : mem.extractLsb' 0 8 = mem.setWidth 8 := (BitVec.setWidth_eq_extractLsb' (by omega)).symm
  have h16 : mem.extractLsb' 0 16 = mem.setWidth 16 :=
    (BitVec.setWidth_eq_extractLsb' (by omega)).symm
  unfold BufferEM.rdataM
  rw [hf, h8, h16]
  cases op <;> rfl

/-- The byte mask selects as many bytes as the store writes. -/
theorem wmask_of_funct3M {b : BufferEM} {op : StoreOp} (hf : b.funct3M = op.funct3) :
    b.wmask = BitVec.ofNat 4 (2 ^ op.bytes - 1) := by
  unfold BufferEM.wmask
  rw [hf]
  cases op <;> rfl

/-- The branch comparison is that of the instruction set. -/
theorem branchTrue_of_funct3E {b : BufferDE} {op : BranchOp} (hop : b.opcodeE = Opcode.bType)
    (hf : b.funct3E = op.funct3) (hr : b.resultSrcE = 0b00#2) {x y : Word}
    (halu : b.alu1 x y = alu x y (if op.funct3.getLsbD 1 then AluOp.sltu else AluOp.slt)) :
    b.branchTrue x y = op.taken x y := by
  have hres : b.aluResultE x y = (b.alu1 x y).aluDC := by
    unfold BufferDE.aluResultE
    rw [hr]
    rfl
  unfold BufferDE.branchTrue
  rw [hop, hf, hres, halu]
  -- The comparison leaves its outcome in bit 0 of the result.
  have hbit (c : Bool) : (if c then 1#32 else 0#32).getLsbD 0 = c := by
    cases c <;> rfl
  -- `beq` and `bne` look at the flag for zero, the others at the result.
  cases op with
  | beq =>
    rw [show BranchOp.taken .beq x y = (alu x y AluOp.slt).aluZero from (alu_slt_zero x y).symm]
    simp [BranchOp.funct3]
  | bne =>
    rw [show BranchOp.taken .bne x y = !(alu x y AluOp.slt).aluZero by rw [alu_slt_zero]; rfl]
    simp [BranchOp.funct3]
  | blt =>
    show _ = x.slt y
    rw [← hbit (x.slt y), ← alu_slt]
    simp [BranchOp.funct3]
  | bge =>
    show _ = !x.slt y
    rw [← hbit (x.slt y), ← alu_slt]
    simp [BranchOp.funct3]
  | bltu =>
    show _ = x.ult y
    rw [← hbit (x.ult y), ← alu_sltu]
    simp [BranchOp.funct3]
  | bgeu =>
    show _ = !x.ult y
    rw [← hbit (x.ult y), ← alu_sltu]
    simp [BranchOp.funct3]

/-! ## One lemma for each opcode -/

section Opcode

variable {w : Word} (pc x y mem rdata1 rdata2 csrRdata : Word) (predict : Bool)

theorem execute_of_lui (h : w.extractLsb' 0 7 = Opcode.lui) :
    execute (bufferDEIn w pc predict rdata1 rdata2 csrRdata) x y mem =
      ⟨some (w.extractLsb' 7 5, (immeDecoder w).imme), pc + 4#32, none, none⟩ := by
  rw [execute_of_csrCtrlE (csrCtrlE_of_ne (by rw [h]; decide))]
  unfold bufferDEIn controlD mulcuDecoder
  rw [h]
  rfl

theorem execute_of_auipc (h : w.extractLsb' 0 7 = Opcode.auipc) :
    execute (bufferDEIn w pc predict rdata1 rdata2 csrRdata) x y mem =
      ⟨some (w.extractLsb' 7 5, pc + (immeDecoder w).imme), pc + 4#32, none, none⟩ := by
  rw [← alu_add]
  rw [execute_of_csrCtrlE (csrCtrlE_of_ne (by rw [h]; decide))]
  unfold bufferDEIn controlD mulcuDecoder
  rw [h]
  rfl

theorem execute_of_jal (h : w.extractLsb' 0 7 = Opcode.jal) :
    execute (bufferDEIn w pc predict rdata1 rdata2 csrRdata) x y mem =
      ⟨some (w.extractLsb' 7 5, pc + 4#32), pc + (immeDecoder w).imme, none, none⟩ := by
  rw [execute_of_csrCtrlE (csrCtrlE_of_ne (by rw [h]; decide))]
  unfold bufferDEIn controlD mulcuDecoder
  rw [h]
  rfl

theorem execute_of_jalr (h : w.extractLsb' 0 7 = Opcode.jalr) :
    execute (bufferDEIn w pc predict rdata1 rdata2 csrRdata) x y mem =
      ⟨some (w.extractLsb' 7 5, pc + 4#32), (immeDecoder w).imme + x, none, none⟩ := by
  rw [execute_of_csrCtrlE (csrCtrlE_of_ne (by rw [h]; decide))]
  unfold bufferDEIn controlD mulcuDecoder
  rw [h]
  rfl

theorem execute_of_load (h : w.extractLsb' 0 7 = Opcode.load) {op : LoadOp}
    (hf : w.extractLsb' 12 3 = op.funct3) :
    execute (bufferDEIn w pc predict rdata1 rdata2 csrRdata) x y mem =
      ⟨some (w.extractLsb' 7 5, op.extend mem), pc + 4#32, some (x + (immeDecoder w).imme), none⟩ := by
  rw [execute_of_csrCtrlE (csrCtrlE_of_ne (by rw [h]; decide)),
    @rdataM_of_funct3M _ op (by exact hf), ← alu_add x]
  unfold bufferDEIn controlD mulcuDecoder
  rw [h]
  rfl

theorem execute_of_store (h : w.extractLsb' 0 7 = Opcode.store) {op : StoreOp}
    (hf : w.extractLsb' 12 3 = op.funct3) :
    execute (bufferDEIn w pc predict rdata1 rdata2 csrRdata) x y mem =
      ⟨none, pc + 4#32, none,
        some ⟨x + (immeDecoder w).imme, y, BitVec.ofNat 4 (2 ^ op.bytes - 1)⟩⟩ := by
  rw [execute_of_csrCtrlE (csrCtrlE_of_ne (by rw [h]; decide)),
    @wmask_of_funct3M _ op (by exact hf), ← alu_add x]
  unfold bufferDEIn controlD mulcuDecoder
  rw [h]
  rfl

theorem execute_of_iType (h : w.extractLsb' 0 7 = Opcode.iType) {op : RegOp}
    (halu : aluDecoder (w.extractLsb' 12 3) (w.getLsbD 30) Opcode.iType = aluOpOf op) :
    execute (bufferDEIn w pc predict rdata1 rdata2 csrRdata) x y mem =
      ⟨some (w.extractLsb' 7 5, op.eval x (immeDecoder w).imme), pc + 4#32, none, none⟩ := by
  rw [← alu_eval, ← halu]
  rw [execute_of_csrCtrlE (csrCtrlE_of_ne (by rw [h]; decide))]
  unfold bufferDEIn controlD mulcuDecoder
  rw [h]
  rfl

theorem execute_of_rType (h : w.extractLsb' 0 7 = Opcode.rType) {op : RegOp}
    (halu : aluDecoder (w.extractLsb' 12 3) (w.getLsbD 30) Opcode.rType = aluOpOf op) :
    execute (bufferDEIn w pc predict rdata1 rdata2 csrRdata) x y mem =
      ⟨some (w.extractLsb' 7 5, op.eval x y), pc + 4#32, none, none⟩ := by
  rw [← alu_eval, ← halu]
  rw [execute_of_csrCtrlE (csrCtrlE_of_ne (by rw [h]; decide))]
  unfold bufferDEIn controlD mulcuDecoder
  rw [h]
  rfl

theorem execute_of_bType (h : w.extractLsb' 0 7 = Opcode.bType) {op : BranchOp}
    (hf : w.extractLsb' 12 3 = op.funct3) :
    execute (bufferDEIn w pc predict rdata1 rdata2 csrRdata) x y mem =
      ⟨none, if op.taken x y then pc + (immeDecoder w).imme else pc + 4#32, none, none⟩ := by
  rw [execute_of_csrCtrlE (csrCtrlE_of_ne (by rw [h]; decide)),
    ← @branchTrue_of_funct3E (bufferDEIn w pc predict rdata1 rdata2 csrRdata) op h hf]
  · unfold bufferDEIn controlD mulcuDecoder
    rw [h, hf]
    cases op <;> rfl
  · unfold bufferDEIn controlD mulcuDecoder
    rw [h]
    rfl
  · rw [← hf]
    unfold bufferDEIn controlD mulcuDecoder
    rw [h]
    rfl

end Opcode

/-! ## The instructions -/

/-- A shift by an immediate takes the low five bits of the immediate, which are the shift amount. -/
theorem eval_imme_shiftImm (op : ShiftOp) (rd rs1 : Reg) (shamt : BitVec 5) (x : Word) :
    op.toRegOp.eval x (immeDecoder (Instr.shiftImm op rd rs1 shamt).encode).imme =
      op.toRegOp.eval x (shamt.setWidth 32) := by
  have hop : (Instr.shiftImm op rd rs1 shamt).encode.extractLsb' 0 7 = Opcode.iType :=
    opcode_assemble ..
  have himme : (immeDecoder (Instr.shiftImm op rd rs1 shamt).encode).imme =
      ((Instr.shiftImm op rd rs1 shamt).encode.extractLsb' 20 12).signExtend 32 := by
    unfold immeDecoder
    rw [hop]
    rfl
  -- The shift amount stands where `rs2` stands in other formats.
  have hlow : ((immeDecoder (Instr.shiftImm op rd rs1 shamt).encode).imme).extractLsb' 0 5 =
      shamt := by
    have hrs2 : (Instr.shiftImm op rd rs1 shamt).encode.extractLsb' 20 5 = shamt := rs2_assemble ..
    rw [himme]
    conv_rhs => rw [← hrs2]
    apply BitVec.eq_of_getLsbD_eq
    intro k hk
    rw [BitVec.getLsbD_extractLsb', BitVec.getLsbD_signExtend, BitVec.getLsbD_extractLsb',
      BitVec.getLsbD_extractLsb', Nat.zero_add, if_pos (by omega)]
    simp [hk, show k < 32 by omega, show k < 12 by omega]
  -- The shifts of the instruction set look at the number modulo 32.
  have hshift : ((immeDecoder (Instr.shiftImm op rd rs1 shamt).encode).imme).toNat % 32 =
      (shamt.setWidth 32).toNat % 32 := by
    have hs := shamt.isLt
    rw [← toNat_aluShift, hlow, BitVec.toNat_setWidth]
    omega
  cases op with
  | slli => exact congrArg (x <<< ·) hshift
  | srli => exact congrArg (x >>> ·) hshift
  | srai => exact congrArg x.sshiftRight hshift

section Encode

variable (pc x y mem rdata1 rdata2 csrRdata : Word) (predict : Bool)

/-- The effect of an encoded instruction is the one that the instruction set gives it. -/
theorem execute_eq_exec (i : Instr) (heven : i.EvenTarget x) :
    execute (bufferDEIn i.encode pc predict rdata1 rdata2 csrRdata) x y mem =
      i.exec pc x y mem := by
  cases i with
  | lui rd imm =>
    have hop : (Instr.lui rd imm).encode.extractLsb' 0 7 = Opcode.lui := opcode_assemble ..
    have hrd : (Instr.lui rd imm).encode.extractLsb' 7 5 = rd := rd_assemble ..
    have himme : (immeDecoder (Instr.lui rd imm).encode).imme = imm ++ 0#12 :=
      imme_uType rd imm (.inl rfl)
    rw [execute_of_lui _ _ _ _ _ _ _ _ hop, hrd, himme]
    rfl
  | auipc rd imm =>
    have hop : (Instr.auipc rd imm).encode.extractLsb' 0 7 = Opcode.auipc := opcode_assemble ..
    have hrd : (Instr.auipc rd imm).encode.extractLsb' 7 5 = rd := rd_assemble ..
    have himme : (immeDecoder (Instr.auipc rd imm).encode).imme = imm ++ 0#12 :=
      imme_uType rd imm (.inr rfl)
    rw [execute_of_auipc _ _ _ _ _ _ _ _ hop, hrd, himme]
    rfl
  | jal rd imm =>
    have hop : (Instr.jal rd imm).encode.extractLsb' 0 7 = Opcode.jal := opcode_assemble ..
    have hrd : (Instr.jal rd imm).encode.extractLsb' 7 5 = rd := rd_assemble ..
    have himme : (immeDecoder (Instr.jal rd imm).encode).imme = (imm ++ 0#1).signExtend 32 :=
      imme_jType rd imm
    rw [execute_of_jal _ _ _ _ _ _ _ _ hop, hrd, himme]
    rfl
  | jalr rd rs1 imm =>
    have hop : (Instr.jalr rd rs1 imm).encode.extractLsb' 0 7 = Opcode.jalr := opcode_assemble ..
    have hrd : (Instr.jalr rd rs1 imm).encode.extractLsb' 7 5 = rd := rd_assemble ..
    have himme : (immeDecoder (Instr.jalr rd rs1 imm).encode).imme = imm.signExtend 32 :=
      imme_iType rs1 rd _ imm (.inl rfl)
    -- The source adds without clearing bit 0, which is 0 here.
    have htarget : (x + imm.signExtend 32) &&& ~~~1#32 = imm.signExtend 32 + x := by
      rw [clear_bit_zero heven, BitVec.add_comm]
    rw [execute_of_jalr _ _ _ _ _ _ _ _ hop, hrd, himme, ← htarget]
    rfl
  | branch op rs1 rs2 imm =>
    have hop : (Instr.branch op rs1 rs2 imm).encode.extractLsb' 0 7 = Opcode.bType :=
      opcode_assemble ..
    have hf : (Instr.branch op rs1 rs2 imm).encode.extractLsb' 12 3 = op.funct3 :=
      funct3_assemble ..
    have himme : (immeDecoder (Instr.branch op rs1 rs2 imm).encode).imme =
        (imm ++ 0#1).signExtend 32 := imme_bType rs2 rs1 _ imm
    rw [execute_of_bType _ _ _ _ _ _ _ _ hop hf, himme]
    rfl
  | load op rd rs1 imm =>
    have hop : (Instr.load op rd rs1 imm).encode.extractLsb' 0 7 = Opcode.load :=
      opcode_assemble ..
    have hf : (Instr.load op rd rs1 imm).encode.extractLsb' 12 3 = op.funct3 := funct3_assemble ..
    have hrd : (Instr.load op rd rs1 imm).encode.extractLsb' 7 5 = rd := rd_assemble ..
    have himme : (immeDecoder (Instr.load op rd rs1 imm).encode).imme = imm.signExtend 32 :=
      imme_iType rs1 rd _ imm (.inr (.inl rfl))
    rw [execute_of_load _ _ _ _ _ _ _ _ hop hf, hrd, himme]
    rfl
  | store op rs1 rs2 imm =>
    have hop : (Instr.store op rs1 rs2 imm).encode.extractLsb' 0 7 = Opcode.store :=
      opcode_assemble ..
    have hf : (Instr.store op rs1 rs2 imm).encode.extractLsb' 12 3 = op.funct3 :=
      funct3_assemble ..
    have himme : (immeDecoder (Instr.store op rs1 rs2 imm).encode).imme = imm.signExtend 32 :=
      imme_sType rs2 rs1 _ imm
    rw [execute_of_store _ _ _ _ _ _ _ _ hop hf, himme]
    rfl
  | opImm op rd rs1 imm =>
    have hop : (Instr.opImm op rd rs1 imm).encode.extractLsb' 0 7 = Opcode.iType :=
      opcode_assemble ..
    have hf : (Instr.opImm op rd rs1 imm).encode.extractLsb' 12 3 = op.toRegOp.funct3 :=
      funct3_assemble ..
    have hrd : (Instr.opImm op rd rs1 imm).encode.extractLsb' 7 5 = rd := rd_assemble ..
    have himme : (immeDecoder (Instr.opImm op rd rs1 imm).encode).imme = imm.signExtend 32 :=
      imme_iType rs1 rd _ imm (.inr (.inr rfl))
    -- Bit 30 belongs to the immediate, and the decoder does not look at it.
    have halu (bit30 : Bool) : aluDecoder op.toRegOp.funct3 bit30 Opcode.iType =
        aluOpOf op.toRegOp := by
      cases op <;> rfl
    rw [execute_of_iType _ _ _ _ _ _ _ _ hop (by rw [hf]; exact halu _), hrd, himme]
    rfl
  | shiftImm op rd rs1 shamt =>
    have hop : (Instr.shiftImm op rd rs1 shamt).encode.extractLsb' 0 7 = Opcode.iType :=
      opcode_assemble ..
    have hf : (Instr.shiftImm op rd rs1 shamt).encode.extractLsb' 12 3 = op.toRegOp.funct3 :=
      funct3_assemble ..
    have hf7 : (Instr.shiftImm op rd rs1 shamt).encode.getLsbD 30 = op.toRegOp.funct7.getLsbD 5 :=
      bit30_assemble ..
    have hrd : (Instr.shiftImm op rd rs1 shamt).encode.extractLsb' 7 5 = rd := rd_assemble ..
    have halu : aluDecoder op.toRegOp.funct3 (op.toRegOp.funct7.getLsbD 5) Opcode.iType =
        aluOpOf op.toRegOp := by
      cases op <;> rfl
    rw [execute_of_iType _ _ _ _ _ _ _ _ hop (by rw [hf, hf7]; exact halu), hrd,
      eval_imme_shiftImm]
    rfl
  | opReg op rd rs1 rs2 =>
    have hop : (Instr.opReg op rd rs1 rs2).encode.extractLsb' 0 7 = Opcode.rType :=
      opcode_assemble ..
    have hf : (Instr.opReg op rd rs1 rs2).encode.extractLsb' 12 3 = op.funct3 := funct3_assemble ..
    have hf7 : (Instr.opReg op rd rs1 rs2).encode.getLsbD 30 = op.funct7.getLsbD 5 :=
      bit30_assemble ..
    have hrd : (Instr.opReg op rd rs1 rs2).encode.extractLsb' 7 5 = rd := rd_assemble ..
    have halu : aluDecoder op.funct3 (op.funct7.getLsbD 5) Opcode.rType = aluOpOf op := by
      cases op <;> rfl
    rw [execute_of_rType _ _ _ _ _ _ _ _ hop (by rw [hf, hf7]; exact halu), hrd]
    rfl

/-- An instruction of the base set is no `ebreak`, and only `j 0` ends the simulation. -/
theorem ebreakE_of_encode (i : Instr) (hend : i.encode ≠ 0x0000006f#32) :
    (controlD i.encode).ebreakE = false := by
  have hne : i.encode ≠ 0x00100073#32 := by
    intro h
    have hop := congrArg (BitVec.extractLsb' 0 7) h
    cases i <;> unfold Instr.encode at hop <;>
      exact absurd ((opcode_assemble ..).symm.trans hop) (by decide)
  show (i.encode == 0x00100073#32 || i.encode == 0x0000006f#32) = false
  rw [beq_eq_false_iff_ne.mpr hne, beq_eq_false_iff_ne.mpr hend]
  rfl

/-- An instruction of the base set touches no CSR. -/
theorem csrCtrlE_of_encode (i : Instr) : (controlD i.encode).csrCtrlE = 0#2 := by
  apply csrCtrlE_of_ne
  cases i <;> unfold Instr.encode <;>
    exact fun h => absurd ((opcode_assemble ..).symm.trans h) (by decide)

/-- The execution functions implement RV32I: for the encoding of every instruction but `j 0`, every
PC, all operands, and every word that the memory returns, and a `jalr` with an even target, the
stages have the effect that the instruction set specifies, write no CSR, and do not end the
simulation. The prediction and what D read for the operands and the CSR play no part in it. -/
theorem execute_encode (i : Instr) (hend : i.encode ≠ 0x0000006f#32) (heven : i.EvenTarget x) :
    let b := bufferDEIn i.encode pc predict rdata1 rdata2 csrRdata
    execute b x y mem = i.exec pc x y mem ∧
      ((b.emIn x y).mwIn mem).csrWenW = false ∧ ((b.emIn x y).mwIn mem).ebreakW = false := by
  refine ⟨execute_eq_exec _ _ _ _ _ _ _ _ i heven, ?_, ebreakE_of_encode i hend⟩
  show ((controlD i.encode).csrCtrlE != 0#2) = false
  rw [csrCtrlE_of_encode]
  rfl

end Encode

/-- A `bltu` that is taken, a `jalr`, and a `sra` by 0. -/
theorem execute_encode_examples :
    execute (bufferDEIn 0x0020e463#32 0x80000000#32 false 0#32 0#32 0#32) 1#32 0xffffffff#32 0#32 =
        ⟨none, 0x80000008#32, none, none⟩ ∧
      execute (bufferDEIn 0x004080e7#32 0x80000000#32 false 0#32 0#32 0#32) 0x1000#32 0#32 0#32 =
        ⟨some (1#5, 0x80000004#32), 0x1004#32, none, none⟩ ∧
      execute (bufferDEIn 0x4020d1b3#32 0x80000000#32 false 0#32 0#32 0#32) 0xfffffff0#32 0#32 0#32 =
        ⟨some (3#5, 0xfffffff0#32), 0x80000004#32, none, none⟩ :=
  ⟨(execute_encode _ _ _ _ _ _ _ _ (.branch .bltu 1#5 2#5 4#12) (by decide) trivial).1,
    (execute_encode _ _ _ _ _ _ _ _ (.jalr 1#5 1#5 4#12) (by decide)
      (show (0x1000#32 + (4#12).signExtend 32 : Word).getLsbD 0 = false by decide)).1,
    (execute_encode _ _ _ _ _ _ _ _ (.opReg .sra 3#5 1#5 2#5) (by decide) trivial).1⟩

end RV32Pipeline
