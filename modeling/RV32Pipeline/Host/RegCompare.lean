import RV32Pipeline.Host.Difftest
import RV32Pipeline.Rtl.Datapath

/-!
# The snapshot that differential testing compares

`get_cpu_state` takes a snapshot of the core through getters with out-parameters. `get_CSR` fills
them in the order `mtvec`, `mstatus`, `mepc`, `mcause`, and `get_cpu_state` passes `mtvec`,
`mcause`, `mepc`, `mstatus` (`reg_display` passes them in the getter's order). The snapshot thus has
`mstatus` and `mcause` exchanged, and it is what `difftest_checkregs` compares and `init_difftest`
hands to the reference.
-/

namespace RV32Pipeline

/-- The function `get_reg` of the register file. -/
def RegisterFile.getReg (rf : RegisterFile) (addr : Fin 32) : Word :=
  if addr = 0 then 0#32 else rf (BitVec.ofNat 5 addr)

/-- The values that the function `get_CSR` of the module `CSR` assigns to its outputs, in order. -/
def Csr.getCSR (c : Csr) : Word × Word × Word × Word := (c.mtvec, c.mstatus, c.mepc, c.mcause)

namespace Datapath

variable (s : Datapath)

/-- The function `Cget_reg`. -/
def cgetReg (addr : Fin 32) : Word := s.rf.getReg addr

/-- The function `Cget_pc_inst`, without the instruction. -/
def cgetPc : Word := s.out ⟨false, 0#32, 0#32, false⟩ |>.pcW

/-- The function `Cget_CSR`. -/
def cgetCSR : Word × Word × Word × Word := s.csr.getCSR

/-- The function `get_cpu_state`. -/
def getCpuState : CpuReg :=
  let (mtvec, mcause, mepc, mstatus) := s.cgetCSR
  { gpr := s.cgetReg
    pc := s.cgetPc
    mtvec := mtvec
    mcause := mcause
    mepc := mepc
    mstatus := mstatus }

/-- The registers of the core under the names of `CPU_reg`: the general registers as the read ports
give them, the register `PC_reg_W`, and the registers of the module `CSR`. -/
def hardwareRegs : CpuReg where
  gpr i := s.rf.read true (BitVec.ofNat 5 i)
  pc := s.mw.pcRegW
  mtvec := s.csr.mtvec
  mstatus := s.csr.mstatus
  mcause := s.csr.mcause
  mepc := s.csr.mepc

end Datapath

namespace Difftest

variable {R : Type*}

/-- The end of `init_difftest`: the reference, which has its memory, is given the registers of the
core. -/
def initDifftest (ref : Reference R) (s : Datapath) (r : R) : Difftest R :=
  init (ref.toRef s.getCpuState r)

/-- The comparison is sound and complete in the state `s` of the core: it succeeds for exactly the
reference registers that are those of the core, and the reference is started with these. -/
structure ComparesRegs (s : Datapath) : Prop where
  checkregs : ∀ refR, difftestCheckregs refR s.getCpuState = true ↔ refR = s.hardwareRegs
  init : ∀ (R : Type) (ref : Reference R) (r : R),
    initDifftest ref s r = Difftest.init (ref.toRef s.hardwareRegs r)

/-- `difftest_checkregs` compares the snapshot field by field. -/
theorem difftestCheckregs_iff (refR dut : CpuReg) :
    difftestCheckregs refR dut = true ↔ refR = dut := by
  obtain ⟨gpr, pc, mtvec, mstatus, mcause, mepc⟩ := refR
  obtain ⟨gpr', pc', mtvec', mstatus', mcause', mepc'⟩ := dut
  unfold difftestCheckregs
  simp only [Bool.and_eq_true, beq_iff_eq, decide_eq_true_eq, CpuReg.mk.injEq, funext_iff]
  constructor
  · rintro ⟨⟨⟨⟨⟨hpc, hgpr⟩, htvec⟩, hstatus⟩, hcause⟩, hepc⟩
    exact ⟨fun i => (hgpr i).symm, hpc.symm, htvec.symm, hstatus.symm, hcause.symm, hepc.symm⟩
  · rintro ⟨hgpr, hpc, htvec, hstatus, hcause, hepc⟩
    exact ⟨⟨⟨⟨⟨hpc.symm, fun i => (hgpr i).symm⟩, htvec.symm⟩, hstatus.symm⟩, hcause.symm⟩,
      hepc.symm⟩

/-- `get_reg` reads what the read ports do. -/
theorem getReg_eq (rf : RegisterFile) (i : Fin 32) :
    rf.getReg i = rf.read true (BitVec.ofNat 5 i) := by
  have h0 : ∀ i : Fin 32, (BitVec.ofNat 5 i != 0#5) = decide (i ≠ 0) := by decide
  unfold RegisterFile.getReg RegisterFile.read
  rw [Bool.true_and, h0]
  by_cases hi : i = 0 <;> simp [hi]

/-- The snapshot is the registers of the core with `mstatus` and `mcause` exchanged. -/
theorem getCpuState_eq (s : Datapath) : s.getCpuState =
    { s.hardwareRegs with mstatus := s.csr.mcause, mcause := s.csr.mstatus } := by
  have hgpr : s.cgetReg = s.hardwareRegs.gpr := funext (getReg_eq s.rf)
  unfold Datapath.getCpuState
  rw [hgpr]
  rfl

/-- The snapshot is right exactly when the two registers hold the same. -/
theorem getCpuState_eq_hardwareRegs_iff (s : Datapath) :
    s.getCpuState = s.hardwareRegs ↔ s.csr.mstatus = s.csr.mcause := by
  rw [getCpuState_eq]
  constructor
  · intro h
    exact congrArg CpuReg.mcause h
  · intro h
    unfold Datapath.hardwareRegs
    rw [h]

/-- For every state of the core: the comparison of the registers is sound and complete, and the
reference is started with the registers of the core, exactly when `mstatus` and `mcause` hold the
same. -/
theorem comparesRegs_iff (s : Datapath) : ComparesRegs s ↔ s.csr.mstatus = s.csr.mcause := by
  rw [← getCpuState_eq_hardwareRegs_iff]
  constructor
  · intro h
    exact (h.checkregs s.getCpuState).mp ((difftestCheckregs_iff _ _).mpr rfl)
  · intro h
    refine ⟨fun refR => ?_, fun R ref r => ?_⟩
    · rw [difftestCheckregs_iff, h]
    · rw [initDifftest, h]

/-- After reset `mstatus` holds `0x1800` and `mcause` 0: a reference with just the registers of the
core is reported to differ. -/
theorem not_comparesRegs_reset : ¬ ComparesRegs Datapath.reset := by
  intro h
  have hr := congrArg CpuReg.mcause
    ((difftestCheckregs_iff _ _).mp ((h.checkregs Datapath.reset.hardwareRegs).mpr rfl))
  revert hr
  decide

end Difftest

end RV32Pipeline
