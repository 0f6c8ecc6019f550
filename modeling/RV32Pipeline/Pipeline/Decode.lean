import RV32Pipeline.Rtl.Forward
import RV32Pipeline.Rtl.Stages

/-!
# Facts about decoded instructions

What the pipeline's correctness uses of the decoders: which source registers an instruction reads,
that the format bits from which `RAWdetect_forward` infers a destination agree with `reg_wen` where
an instruction writes, and that loads do not jump or store. The last section says that the outcome
of the execute stage depends only on the source registers that the instruction reads.
-/

namespace RV32Pipeline

namespace ControlE

variable (c : ControlE)

/-- The instruction reads its first source register. -/
def readsRs1 : Bool :=
  c.opcodeE == Opcode.rType || c.opcodeE == Opcode.iType || c.opcodeE == Opcode.load ||
    c.opcodeE == Opcode.store || c.opcodeE == Opcode.bType || c.opcodeE == Opcode.jalr ||
    c.opcodeE == Opcode.csr

/-- The instruction reads its second source register. -/
def readsRs2 : Bool :=
  c.opcodeE == Opcode.rType || c.opcodeE == Opcode.store || c.opcodeE == Opcode.bType

/-- The instruction is `csrrw` or `csrrs`. -/
def isCsr : Bool := c.csrCtrlE != 0#2

/-- The instruction reads a CSR: `csrrw`, `csrrs`, or `mret`. -/
def readsCsr : Bool := c.isCsr || c.mretE

end ControlE

section Decoded

variable {w : Word}

/-- An instruction that writes a register has a format with a destination. -/
theorem noRd_of_regWriteE (h : (controlD w).regWriteE = true) :
    RawDetect.noRd (controlD w).typeE = false := by
  simp only [controlD, mulcuDecoder, immeDecoder, RawDetect.noRd] at *
  generalize w.extractLsb' 0 7 = op at *
  generalize w.extractLsb' 12 3 = f3 at *
  revert op f3
  decide

/-- An instruction that reads its second source register has a format with one. -/
theorem noRs2_of_readsRs2 (h : (controlD w).readsRs2 = true) :
    RawDetect.noRs2 (immeDecoder w).type = false := by
  simp only [ControlE.readsRs2, controlD, mulcuDecoder, immeDecoder, RawDetect.noRs2] at *
  generalize w.extractLsb' 0 7 = op at *
  revert op
  decide

/-- A load writes its register with the word that it read. -/
theorem load_of_memReadE (h : (controlD w).memReadE = true) :
    (controlD w).regWriteE = true ∧ (controlD w).resultSrcE = 0b01#2 := by
  simp only [controlD, mulcuDecoder] at *
  generalize w.extractLsb' 0 7 = op at *
  revert op
  simp only [beq_iff_eq]
  rintro _ rfl
  exact ⟨rfl, rfl⟩

/-- A load is no other instruction: it neither stores nor jumps, and it does not touch a CSR. -/
theorem other_of_memReadE (h : (controlD w).memReadE = true) :
    (controlD w).memWriteE = false ∧ (controlD w).jalE = false ∧ (controlD w).jalrE = false ∧
      (controlD w).branchE = false ∧ (controlD w).mretE = false ∧ (controlD w).isCsr = false := by
  simp only [controlD, mulcuDecoder, ControlE.isCsr] at *
  generalize w.extractLsb' 0 7 = op at *
  generalize w.extractLsb' 12 3 = f3 at *
  simp only [beq_iff_eq] at h
  subst h
  refine ⟨rfl, rfl, rfl, ?_, rfl, ?_⟩ <;> revert f3 <;> decide

/-- A store neither loads nor jumps. -/
theorem other_of_memWriteE (h : (controlD w).memWriteE = true) :
    (controlD w).memReadE = false ∧ (controlD w).jalE = false ∧ (controlD w).jalrE = false ∧
      (controlD w).branchE = false ∧ (controlD w).mretE = false := by
  simp only [controlD, mulcuDecoder] at *
  generalize w.extractLsb' 0 7 = op at *
  generalize w.extractLsb' 12 3 = f3 at *
  simp only [beq_iff_eq] at h
  subst h
  refine ⟨rfl, rfl, rfl, ?_, rfl⟩
  revert f3
  decide

/-- The program ends with an `ebreak` or a `j 0`. -/
theorem eq_of_ebreakE (h : (controlD w).ebreakE = true) :
    w = 0x00100073#32 ∨ w = 0x0000006f#32 := by
  have hb : (immeDecoder w).ebreak = true := h
  simpa [immeDecoder] using hb

/-- Only a load writes back what the memory returned. -/
theorem memReadE_of_resultSrcE (h : (controlD w).resultSrcE = 0b01#2) :
    (controlD w).memReadE = true := by
  simp only [controlD, mulcuDecoder] at *
  generalize w.extractLsb' 0 7 = op at *
  revert op
  decide

/-- Only a branch or a register-register operation has its second operand in a register. -/
theorem readsRs2_of_aluSrcE (h : (controlD w).aluSrcE = true) : (controlD w).readsRs2 = true := by
  simp only [controlD, mulcuDecoder, ControlE.readsRs2] at *
  generalize w.extractLsb' 0 7 = op at *
  revert op
  decide

/-- The result of an instruction that writes a register or the memory and does not read its first
source register is the return address, the immediate, or relative to the PC. -/
theorem resultSrcE_of_not_readsRs1
    (hw : ((controlD w).regWriteE || (controlD w).memWriteE) = true)
    (h : (controlD w).readsRs1 = false) :
    (controlD w).resultSrcE = 0b10#2 ∨ (controlD w).resultSrcE = 0b11#2 ∨
      (controlD w).auipcE = true := by
  simp only [controlD, mulcuDecoder, ControlE.readsRs1] at *
  generalize w.extractLsb' 0 7 = op at *
  generalize w.extractLsb' 12 3 = f3 at *
  revert op f3
  decide

/-- A conditional branch reads both of its source registers. -/
theorem reads_of_branchE (h : (controlD w).branchE = true) :
    (controlD w).readsRs1 = true ∧ (controlD w).readsRs2 = true := by
  simp only [controlD, mulcuDecoder, ControlE.readsRs1, ControlE.readsRs2] at *
  generalize w.extractLsb' 0 7 = op at *
  generalize w.extractLsb' 12 3 = f3 at *
  revert op f3
  decide

/-- A `jalr` reads its first source register. -/
theorem readsRs1_of_jalrE (h : (controlD w).jalrE = true) :
    (controlD w).readsRs1 = true ∧ (controlD w).auipcE = false := by
  simp only [controlD, mulcuDecoder, ControlE.readsRs1] at *
  generalize w.extractLsb' 0 7 = op at *
  revert op
  decide

/-- A store reads the register whose value it stores. -/
theorem readsRs2_of_memWriteE (h : (controlD w).memWriteE = true) :
    (controlD w).readsRs2 = true := by
  simp only [controlD, mulcuDecoder, ControlE.readsRs2] at *
  generalize w.extractLsb' 0 7 = op at *
  revert op
  decide

/-- A `csrrw` or `csrrs` reads its first source register. -/
theorem readsRs1_of_isCsr (h : (controlD w).isCsr = true) : (controlD w).readsRs1 = true := by
  simp only [controlD, mulcuDecoder, ControlE.isCsr, ControlE.readsRs1] at *
  generalize w.extractLsb' 0 7 = op at *
  generalize w.extractLsb' 12 3 = f3 at *
  revert op f3
  decide

end Decoded

/-! ## The execute stage depends on the registers that the instruction reads -/

section Congr

variable {w : Word} {b b' : BufferDE} {x x' y y' : Word} (hb : b.toControlE = controlD w)
  (hb' : b'.toControlE = controlD w) (hpc : b.pcRegE = b'.pcRegE)
  (hx : (controlD w).readsRs1 = true → x = x') (hy : (controlD w).readsRs2 = true → y = y')
include hb hb' hpc hx hy

omit hy in
/-- The first operand of the ALU. -/
theorem aluDA_congr (h : (controlD w).readsRs1 = true ∨ (controlD w).auipcE = true) :
    b.aluDA x = b'.aluDA x' := by
  simp only [BufferDE.aluDA, hb, hb', hpc]
  rcases h with h | h
  · rw [hx h]
  · simp [h]

omit hpc hx in
/-- The second operand of the ALU. -/
theorem aluDB_congr : b.aluDB y = b'.aluDB y' := by
  simp only [BufferDE.aluDB, hb, hb']
  cases h : (controlD w).aluSrcE
  · rfl
  · rw [hy (readsRs2_of_aluSrcE h)]

/-- The result of an instruction that writes a register or the memory. -/
theorem aluResultE_congr (hw : ((controlD w).regWriteE || (controlD w).memWriteE) = true) :
    b.aluResultE x y = b'.aluResultE x' y' := by
  have hDB := aluDB_congr hb hb' hy
  simp only [BufferDE.aluResultE, BufferDE.alu1, hb, hb', hpc, hDB]
  cases h1 : (controlD w).readsRs1
  · rcases resultSrcE_of_not_readsRs1 hw h1 with h | h | h
    · simp [h]
    · simp [h]
    · rw [aluDA_congr hb hb' hpc hx (.inr h)]
  · rw [aluDA_congr hb hb' hpc hx (.inl h1)]

/-- The condition of a branch. -/
theorem branchTrue_congr (h : (controlD w).branchE = true) :
    b.branchTrue x y = b'.branchTrue x' y' := by
  obtain ⟨h1, h2⟩ := reads_of_branchE h
  simp only [BufferDE.branchTrue, BufferDE.aluResultE, BufferDE.alu1, hb, hb', hpc,
    aluDB_congr hb hb' hy, aluDA_congr hb hb' hpc hx (.inl h1)]

/-- Whether the instruction jumps. -/
theorem jumpSign_congr : b.jumpSign x y = b'.jumpSign x' y' := by
  simp only [BufferDE.jumpSign, hb, hb']
  cases h : (controlD w).branchE
  · simp
  · rw [branchTrue_congr hb hb' hpc hx hy h]

omit hy in
/-- Where the instruction jumps to. -/
theorem jumpTarget_congr : b.jumpTarget x = b'.jumpTarget x' := by
  simp only [BufferDE.jumpTarget, BufferDE.pcJalr, BufferDE.pcJump, hb, hb', hpc]
  cases h : (controlD w).jalrE
  · rfl
  · rw [aluDA_congr hb hb' hpc hx (.inl (readsRs1_of_jalrE h).1)]

/-- The address of the next instruction, given the CSR that an `mret` reads. -/
theorem pcCorrectionPath_congr (hc : (controlD w).mretE = true → b.csrRdataE = b'.csrRdataE) :
    b.pcCorrectionPath x y = b'.pcCorrectionPath x' y' := by
  simp only [BufferDE.pcCorrectionPath, hb, hb', hpc, jumpSign_congr hb hb' hpc hx hy,
    jumpTarget_congr hb hb' hpc hx]
  cases h : (controlD w).mretE
  · rfl
  · simp [hc h]

end Congr

end RV32Pipeline
