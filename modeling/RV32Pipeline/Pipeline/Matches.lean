import RV32Pipeline.Machine.System
import RV32Pipeline.Pipeline.Decode

/-!
# A stage that holds an instruction of the sequential machine

A stage buffer matches the next instruction of a state of the sequential machine when it agrees with
what the sequential machine computes for it, in everything that the instruction uses: an operand
that it does not read, or data from the memory for an instruction that is not a load, may be
anything. Matching is handed on from stage to stage, and an instruction that leaves a stage has the
effect that it has on the sequential machine.
-/

namespace RV32Pipeline

/-- E holds the next instruction of `a`, with the operands of `a`. -/
structure ExMatches (s : Datapath) (a : Arch) : Prop where
  control : s.de.toControlE = controlD a.instr
  pc : s.de.pcRegE = a.pc
  src1 : (controlD a.instr).readsRs1 = true → s.src1E = a.de.rdata1E
  src2 : (controlD a.instr).readsRs2 = true → s.src2 = a.de.rdata2E
  csr : (controlD a.instr).readsCsr = true → s.de.csrRdataE = a.de.csrRdataE

/-- M holds the next instruction of `a`, with its result. -/
structure MemMatches (b : BufferEM) (a : Arch) : Prop where
  control : b.toControlM = (controlD a.instr).toM
  pc : b.pcRegM = a.pc
  result : ((controlD a.instr).regWriteE || (controlD a.instr).memWriteE) = true →
    b.aluResultM = a.em.aluResultM
  data : (controlD a.instr).memWriteE = true → b.writeDataM = a.em.writeDataM
  src1 : (controlD a.instr).isCsr = true → b.src1M = a.em.src1M
  csr : (controlD a.instr).isCsr = true → b.csrRdataM = a.em.csrRdataM

/-- W holds the next instruction of `a`, with what it writes back when the data bus answers with
`v`. -/
structure WbMatches (b : BufferMW) (a : Arch) (v : Word) : Prop where
  control : b.toControlW = (controlD a.instr).toM.toW
  pc : b.pcRegW = a.pc
  result : (controlD a.instr).regWriteE = true → b.aluResultW = (a.mwWith v).aluResultW
  read : (controlD a.instr).memReadE = true → b.readDataW = (a.mwWith v).readDataW
  src1 : (controlD a.instr).isCsr = true → b.src1W = (a.mwWith v).src1W
  csr : (controlD a.instr).isCsr = true → b.csrRdataW = (a.mwWith v).csrRdataW

namespace ExMatches

variable {s : Datapath} {a : Arch} (h : ExMatches s a)
include h

/-- The instruction in E jumps exactly when it does on the sequential machine. -/
theorem jumpSign : s.jumpSign = a.de.jumpSign a.de.rdata1E a.de.rdata2E :=
  jumpSign_congr h.control rfl h.pc h.src1 h.src2

/-- A correction of the PC goes to the next instruction of the sequential machine. -/
theorem pcCorrectionPath (v : Word) : s.pcCorrectionPath = (a.nextWith v).pc :=
  pcCorrectionPath_congr h.control rfl h.pc h.src1 h.src2 fun hm =>
    h.csr (by simp [ControlE.readsCsr, hm])

/-- Without a misprediction, the next instruction is at the jump's target or at the next word. -/
theorem next_pc_of_not_preWrong (hp : s.preWrong = false) (v : Word) :
    (a.nextWith v).pc = if s.de.predictE then s.de.jumpTarget s.src1E else s.de.pcRegE + 4#32 := by
  rw [← h.pcCorrectionPath v]
  simp only [Datapath.preWrong, BufferDE.preWrong, Bool.or_eq_false_iff, bne_eq_false_iff_eq] at hp
  simp [Datapath.pcCorrectionPath, BufferDE.pcCorrectionPath, hp]

/-- The instruction in E is handed to M. -/
theorem emIn : MemMatches s.emIn a where
  control := by simp [Datapath.emIn, BufferDE.emIn, h.control]
  pc := h.pc
  result hw := aluResultE_congr h.control rfl h.pc h.src1 h.src2 hw
  data hw := h.src2 (readsRs2_of_memWriteE hw)
  src1 hc := h.src1 (readsRs1_of_isCsr hc)
  csr hc := h.csr (by simp [ControlE.readsCsr, hc])

end ExMatches

namespace MemMatches

variable {b : BufferEM} {a : Arch} (h : MemMatches b a)
include h

/-- The instruction in M makes the transaction that it makes on the sequential machine. -/
theorem write : b.write = a.em.write := by
  have hc : a.em.toControlM = (controlD a.instr).toM := rfl
  have hm : b.memWriteM = a.em.memWriteM := by rw [h.control, hc]
  have hf : b.wmask = a.em.wmask := by simp only [BufferEM.wmask, h.control, hc]
  cases hw : a.em.memWriteM
  · simp [BufferEM.write, hm, hw]
  · have hw' : (controlD a.instr).memWriteE = true := hw
    simp [BufferEM.write, hm, hw, hf, h.data hw', h.result (by simp [hw'])]

/-- The instruction in M accesses the address that it accesses on the sequential machine. -/
theorem accesses (ha : (b.memReadM || b.memWriteM) = true) :
    (a.em.memReadM || a.em.memWriteM) = true ∧ a.em.aluResultM = b.aluResultM := by
  have hc : a.em.toControlM = (controlD a.instr).toM := rfl
  rw [h.control] at ha
  refine ⟨by rw [hc]; exact ha, (h.result ?_).symm⟩
  have ha' : ((controlD a.instr).memReadE || (controlD a.instr).memWriteE) = true := ha
  rcases Bool.or_eq_true_iff.mp ha' with hl | hw
  · rw [(load_of_memReadE hl).1, Bool.true_or]
  · rw [hw, Bool.or_true]

/-- The instruction in M changes the memory as it does on the sequential machine. -/
theorem commit (m : Memories) : m.commit b = m.commit a.em := by
  have hw := h.write
  have hm : b.memWriteM = a.em.memWriteM := by rw [h.control]; rfl
  simp only [BufferEM.write, hm] at hw
  simp only [Memories.commit, hm]
  split_ifs at hw ⊢
  · simp_all
  · rfl

/-- The instruction in M is handed to W, with the word that the bus returned if it is a load. -/
theorem mwIn {rdata v : Word} (hr : (controlD a.instr).memReadE = true → rdata = v) :
    WbMatches (b.mwIn rdata) a v where
  control := by simp [BufferEM.mwIn, h.control]
  pc := h.pc
  result hw := h.result (by simp [hw])
  read hl := by
    have hres := h.result (by simp [(load_of_memReadE hl).1])
    have hc : a.em.toControlM = (controlD a.instr).toM := rfl
    simp only [BufferEM.mwIn, Arch.mwWith, BufferEM.rdataM, hr hl, hres, h.control, hc]
  src1 hc := h.src1 hc
  csr hc := h.csr hc

end MemMatches

namespace WbMatches

variable {b : BufferMW} {a : Arch} {v : Word} (h : WbMatches b a v)
include h

/-- The value that the instruction in W writes to its register. -/
theorem wdata (hw : (controlD a.instr).regWriteE = true) : b.wdata = (a.mwWith v).wdata := by
  have hc : (a.mwWith v).toControlW = (controlD a.instr).toM.toW := rfl
  simp only [BufferMW.wdata, BufferMW.wdataRaw, BufferMW.csrWenW, h.control, hc]
  cases hcsr : (controlD a.instr).isCsr
  · have hn : ((controlD a.instr).toM.toW.csrCtrlW != 0#2) = false := hcsr
    simp only [hn, h.result hw, Bool.false_eq_true, if_false]
    split_ifs with hs
    · rw [h.read (memReadE_of_resultSrcE hs)]
    · rfl
  · have hn : ((controlD a.instr).toM.toW.csrCtrlW != 0#2) = true := hcsr
    simp [hn, h.csr hcsr]

/-- The instruction in W leaves the register file as it does on the sequential machine. -/
theorem rf (rf : RegisterFile) :
    rf.next false b.regWriteW b.rdW b.wdata =
      rf.next false (a.mwWith v).regWriteW (a.mwWith v).rdW (a.mwWith v).wdata := by
  have hc : (a.mwWith v).toControlW = (controlD a.instr).toM.toW := rfl
  have hr : b.regWriteW = (a.mwWith v).regWriteW := by rw [h.control, hc]
  have hd : b.rdW = (a.mwWith v).rdW := by rw [h.control, hc]
  simp only [RegisterFile.next, hr, hd]
  cases hw : (a.mwWith v).regWriteW
  · rfl
  · rw [h.wdata hw]

/-- What a register holds after the instruction in W. -/
theorem next_rf (r : BitVec 5) :
    (a.nextWith v).rf r = if b.regWriteW && b.rdW == r then b.wdata else a.rf r := by
  have hn : (a.nextWith v).rf = a.rf.next false b.regWriteW b.rdW b.wdata := (h.rf a.rf).symm
  rw [hn, RegisterFile.next_apply]

/-- The value that the instruction in W writes to its CSR. -/
theorem csrWdataW (hcsr : (controlD a.instr).isCsr = true) : b.csrWdataW = (a.mwWith v).csrWdataW := by
  have hc : (a.mwWith v).toControlW = (controlD a.instr).toM.toW := rfl
  simp only [BufferMW.csrWdataW, h.control, hc, h.src1 hcsr, h.csr hcsr]

/-- The instruction in W leaves the CSRs as it does on the sequential machine. -/
theorem csrs (c : Csr) :
    c.next false b.csrWenW b.csrWaddrW b.csrWdataW =
      c.next false (a.mwWith v).csrWenW (a.mwWith v).csrWaddrW (a.mwWith v).csrWdataW := by
  have hc : (a.mwWith v).toControlW = (controlD a.instr).toM.toW := rfl
  have he : b.csrWenW = (a.mwWith v).csrWenW := by simp only [BufferMW.csrWenW, h.control, hc]
  have hd : b.csrWaddrW = (a.mwWith v).csrWaddrW := by rw [h.control, hc]
  simp only [Csr.next, he, hd]
  cases hw : (a.mwWith v).csrWenW
  · rfl
  · rw [h.csrWdataW hw]

/-- An instruction that does not write the CSR leaves it as it is. -/
theorem next_csr_read {csrRaddr : BitVec 12}
    (hc : b.csrWenW = true → Csr.idx b.csrWaddrW ≠ Csr.idx csrRaddr) :
    (a.nextWith v).csr.read csrRaddr = a.csr.read csrRaddr := by
  have hn : (a.nextWith v).csr = a.csr.next false b.csrWenW b.csrWaddrW b.csrWdataW :=
    (h.csrs a.csr).symm
  rw [hn, Csr.next]
  cases hw : b.csrWenW
  · rfl
  · exact Csr.read_write_of_ne _ _ (hc hw)

end WbMatches

namespace MemMatches

variable {b : BufferEM} {a : Arch} (h : MemMatches b a)
include h

/-- What a register holds after the instruction in M, given the word that it reads if it is a load
to this register. -/
theorem next_rf {rdata v : Word} {r : BitVec 5}
    (hr : (b.regWriteM && b.rdM == r) = true → (controlD a.instr).memReadE = true → rdata = v) :
    (a.nextWith v).rf r = if b.regWriteM && b.rdM == r then (b.mwIn rdata).wdata else a.rf r := by
  cases hw : b.regWriteM && b.rdM == r
  · -- The instruction does not write `r`, whatever it reads.
    rw [(h.mwIn fun _ => rfl).next_rf r, if_neg (by simpa [BufferEM.mwIn, ControlM.toW] using hw)]
    rfl
  · rw [(h.mwIn (hr hw)).next_rf r]
    simp only [BufferEM.mwIn, ControlM.toW, hw, if_true]

/-- An instruction that does not write the CSR leaves it as it is. -/
theorem next_csr_read {csrRaddr : BitVec 12}
    (hc : b.csrCtrlM ≠ 0#2 → Csr.idx b.csrWaddrM ≠ Csr.idx csrRaddr) (v : Word) :
    (a.nextWith v).csr.read csrRaddr = a.csr.read csrRaddr :=
  (h.mwIn fun _ => rfl).next_csr_read fun hw => hc (by
    simpa [BufferMW.csrWenW, BufferEM.mwIn, ControlM.toW] using hw)

end MemMatches

end RV32Pipeline
