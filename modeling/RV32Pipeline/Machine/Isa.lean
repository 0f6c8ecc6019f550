import RV32Pipeline.Lib.Rv32iMachine
import RV32Pipeline.Machine.Seq
import RV32Pipeline.Rtl.CsrFile
import RV32Pipeline.Rtl.Execution

/-!
# The sequential machine implements the instruction set

`Arch.next` executes an instruction word with the functions of the core; `State.exec` executes an
instruction as RV32I, `csrrw`, `csrrs`, and `mret` are specified. `Arch.Implements` relates the two
states, and one step of each preserves it when the word is the encoding of the instruction
(`Arch.Implements.next`). The core answers only for the CSRs that it has, and only for a `jalr` with
an even target.
-/

namespace RV32Pipeline

open Rv32i

/-! ## The operands of an instruction -/

/-- An instruction depends on the registers that its word names only through its own operands. -/
theorem exec_operands (i : Instr) (f : Reg → Word) (pc mem : Word) :
    i.exec pc (f (i.encode.extractLsb' 15 5)) (f (i.encode.extractLsb' 20 5)) mem =
      i.exec pc (f i.rs1) (f i.rs2) mem := by
  -- A format without a field for an operand ignores it.
  have h1 (y : Word) : i.exec pc (f (i.encode.extractLsb' 15 5)) y mem =
      i.exec pc (f i.rs1) y mem := by
    cases h : i.source1 with
    | none => cases i <;> cases h <;> rfl
    | some r =>
      rw [Instr.rs1_encode h]
      cases i <;> cases h <;> rfl
  have h2 (x : Word) : i.exec pc x (f (i.encode.extractLsb' 20 5)) mem =
      i.exec pc x (f i.rs2) mem := by
    cases h : i.source2 with
    | none => cases i <;> cases h <;> rfl
    | some r =>
      rw [Instr.rs2_encode h]
      cases i <;> cases h <;> rfl
  rw [h1, h2]

/-- The target of a `jalr` depends on its own operand. -/
theorem evenTarget_operand (i : Instr) (f : Reg → Word) :
    i.EvenTarget (f (i.encode.extractLsb' 15 5)) ↔ i.EvenTarget (f i.rs1) := by
  cases h : i.source1 with
  | none => cases i <;> cases h <;> rfl
  | some r =>
    rw [Instr.rs1_encode h]
    cases i <;> cases h <;> rfl

/-! ## What the stages do with a system instruction -/

section System

variable (w pc x y mem rdata1 rdata2 csrRdata : Word) (predict : Bool)

/-- A `csrrw` or `csrrs` writes what D read from the CSR to its register, and goes on. -/
theorem execute_of_csr (hop : w.extractLsb' 0 7 = Opcode.csr)
    (hf : w.extractLsb' 12 3 = 0b001#3 ∨ w.extractLsb' 12 3 = 0b010#3) :
    execute (bufferDEIn w pc predict rdata1 rdata2 csrRdata) x y mem =
      ⟨some (w.extractLsb' 7 5, csrRdata), pc + 4#32, none, none⟩ := by
  unfold execute bufferDEIn controlD mulcuDecoder
  rw [hop]
  rcases hf with hf | hf <;> rw [hf] <;> rfl

/-- A `csrrw` or `csrrs` writes its CSR. -/
theorem csrPort_of_csr (hop : w.extractLsb' 0 7 = Opcode.csr)
    (hf : w.extractLsb' 12 3 = 0b001#3 ∨ w.extractLsb' 12 3 = 0b010#3) :
    CsrPort.ofMW
        (((bufferDEIn w pc predict rdata1 rdata2 csrRdata).emIn x y).mwIn mem) =
      ⟨true, w.extractLsb' 20 12,
        if w.extractLsb' 12 3 = 0b001#3 then x else x ||| csrRdata⟩ := by
  unfold CsrPort.ofMW bufferDEIn controlD mulcuDecoder
  rw [hop]
  rcases hf with hf | hf <;> rw [hf] <;> rfl

/-- An `mret` jumps to what D read from `mepc`, and writes `x0`. -/
theorem execute_of_mret :
    ∃ v, execute (bufferDEIn SysInstr.mret.encode pc predict rdata1 rdata2 csrRdata) x y mem =
      ⟨some (0#5, v), csrRdata, none, none⟩ := ⟨_, rfl⟩

end System

/-! ## One instruction of the sequential machine -/

namespace Arch

variable (a : Arch)

/-- What the next instruction does. -/
def effect : Effect := execute a.de a.de.rdata1E a.de.rdata2E a.rdata

/-- The write to the CSRs that the next instruction makes. -/
def csrPort : CsrPort := CsrPort.ofMW a.mw

theorem next_pc : a.next.pc = a.effect.nextPc := rfl

/-- The registers that an instruction reads, by the number in its word. -/
theorem next_read (r : Reg) : a.next.rf.read true r =
    match a.effect.dest with
    | some (rd, v) => if r = 0#5 then 0#32 else if r = rd then v else a.rf.read true r
    | none => a.rf.read true r := by
  have hdest : a.effect.dest = if a.mw.regWriteW then some (a.mw.rdW, a.mw.wdata) else none := rfl
  have hnext : a.next.rf = a.rf.next false a.mw.regWriteW a.mw.rdW a.mw.wdata := rfl
  rw [hdest, hnext]
  cases hw : a.mw.regWriteW
  · rfl
  · by_cases h0 : r = 0#5
    · simp [RegisterFile.read, h0]
    · by_cases hr : r = a.mw.rdW
      · simp [RegisterFile.read, RegisterFile.next_apply, hr]
      · simp [RegisterFile.read, RegisterFile.next_apply, h0, hr, Ne.symm hr]

theorem next_dmem : a.next.mem.dmem =
    match a.effect.store with
    | some st => a.mem.dmem.store st.addr st.data st.mask
    | none => a.mem.dmem := by
  have hstore : a.effect.store =
      if a.em.memWriteM then some ⟨a.em.aluResultM, a.em.writeDataM, a.em.wmask⟩ else none := rfl
  have hnext : a.next.mem = a.mem.commit a.em := rfl
  rw [hstore, hnext, Memories.commit]
  cases a.em.memWriteM <;> rfl

theorem next_get (n : CsrName) : a.next.csr.get n = (a.csr.edge a.csrPort).get n := rfl

/-- What an instruction that stores writes. -/
theorem write_of_effect {st : Option Store} (h : a.effect.store = st) :
    a.em.write = st.map fun s => (s.addr, s.data, s.mask) := by
  have hstore : a.effect.store =
      if a.em.memWriteM then some ⟨a.em.aluResultM, a.em.writeDataM, a.em.wmask⟩ else none := rfl
  rw [← h, hstore, BufferEM.write]
  cases a.em.memWriteM <;> rfl

/-- A state of the sequential machine has the registers, the memory, and the CSRs of a state of the
instruction set. -/
structure Implements (a : Arch) (s : State) : Prop where
  pc : a.pc = s.pc
  reg : ∀ r, a.rf.read true r = s.reg r
  mem : a.mem.dmem = s.mem
  csr : ∀ n : CsrName, a.csr.get n = s.csr n.addr

end Arch

/-- The registers of the module `CSR` that an instruction accesses exist. -/
def CsrsImplemented : SysInstr → Prop
  | .csrrw _ csr _ => CsrName.Implemented csr
  | .csrrs _ csr _ => CsrName.Implemented csr
  | _ => True

/-- What an instruction stores in a state. -/
def storeOf (s : State) : SysInstr → Option Store
  | .base i => (s.effect i).store
  | _ => none

namespace Arch.Implements

variable {a : Arch} {s : State} (h : a.Implements s)
include h

/-- An instruction of the base set has its effect. -/
theorem effect_base {i : Instr} (hi : a.instr = i.encode) (heven : i.EvenTarget (s.reg i.rs1)) :
    a.effect = s.effect i := by
  have heven' : i.EvenTarget (a.de.rdata1E) := by
    change i.EvenTarget (a.rf.read true (a.instr.extractLsb' 15 5))
    rw [h.reg, hi]
    exact (evenTarget_operand i s.reg).mpr heven
  have hexec (mem : Word) : execute a.de a.de.rdata1E a.de.rdata2E mem =
      i.exec s.pc (s.reg i.rs1) (s.reg i.rs2) mem := by
    have hde : a.de = bufferDEIn i.encode a.pc false a.de.rdata1E a.de.rdata2E a.de.csrRdataE := by
      rw [← hi]
      rfl
    have hx : a.de.rdata1E = s.reg (i.encode.extractLsb' 15 5) := by
      rw [← h.reg, ← hi]
      rfl
    have hy : a.de.rdata2E = s.reg (i.encode.extractLsb' 20 5) := by
      rw [← h.reg, ← hi]
      rfl
    rw [← exec_operands, ← hx, ← hy, ← h.pc, ← execute_eq_exec a.pc _ _ mem a.de.rdata1E
      a.de.rdata2E a.de.csrRdataE false i heven', ← hde]
  rw [Arch.effect, hexec, State.effect]
  -- A load reads at the address that both compute.
  have hload : (execute a.de a.de.rdata1E a.de.rdata2E 0#32).load =
      if a.em.memReadM then some a.em.aluResultM else none := rfl
  rw [hexec] at hload
  have hnone (hn : (i.exec s.pc (s.reg i.rs1) (s.reg i.rs2) 0#32).load = none) (mem : Word) :
      i.exec s.pc (s.reg i.rs1) (s.reg i.rs2) mem =
        i.exec s.pc (s.reg i.rs1) (s.reg i.rs2) 0#32 := by
    cases i with
    | load => contradiction
    | lui | auipc | jal | jalr | branch | store | opImm | shiftImm | opReg => rfl
  cases hl : (i.exec s.pc (s.reg i.rs1) (s.reg i.rs2) 0#32).load with
  | none => exact hnone hl _
  | some addr =>
    rw [hl] at hload
    have haddr : a.em.aluResultM = addr := by
      cases hm : a.em.memReadM <;> simp [hm] at hload
      exact hload.symm
    rw [Arch.rdata, haddr, ← h.mem]
    rfl

/-- An encoded instruction makes the write transactions that it is specified to make. -/
theorem write {i : SysInstr} (hi : a.instr = i.encode) (heven : s.EvenTarget i) :
    a.em.write = (storeOf s i).map fun st => (st.addr, st.data, st.mask) := by
  have hsys (hop : a.instr.extractLsb' 0 7 = Opcode.csr) : a.em.write = none := by
    have hw : a.em.memWriteM = false := by
      change (a.instr.extractLsb' 0 7 == Opcode.store) = false
      rw [hop]
      rfl
    rw [BufferEM.write, hw]
    rfl
  cases i with
  | base i => exact a.write_of_effect (by rw [h.effect_base hi heven]; rfl)
  | csrrw | csrrs => exact hsys (by rw [hi]; exact opcode_assemble ..)
  | mret => exact hsys (by rw [hi]; rfl)

/-- The next state has the effect of an instruction that leaves the CSRs alone. -/
theorem next_of_effect {s' : State} (hpc : s'.pc = a.effect.nextPc)
    (hreg : ∀ r, s'.reg r = match a.effect.dest with
      | some (rd, v) => if r = 0#5 then 0#32 else if r = rd then v else s.reg r
      | none => s.reg r)
    (hmem : s'.mem = match a.effect.store with
      | some st => s.mem.store st.addr st.data st.mask
      | none => s.mem)
    (hcsr : ∀ n : CsrName, s'.csr n.addr = (a.csr.edge a.csrPort).get n) :
    a.next.Implements s' where
  pc := by rw [a.next_pc, hpc]
  reg r := by rw [a.next_read, hreg, h.reg]
  mem := by rw [a.next_dmem, hmem, h.mem]
  csr n := by rw [a.next_get, hcsr]

/-- An access to a CSR. -/
theorem next_csr {rd rs1 : Reg} {csr : BitVec 12} (himp : CsrName.Implemented csr)
    {funct3 : BitVec 3} (hf : funct3 = 0b001#3 ∨ funct3 = 0b010#3)
    (hi : a.instr = iType csr rs1 funct3 rd Opcode.csr) :
    a.next.Implements
      { s with
        pc := s.pc + 4#32
        regs := Function.update s.regs rd (s.csr csr)
        csr := Function.update s.csr csr
          (if funct3 = 0b001#3 then s.reg rs1 else s.csr csr ||| s.reg rs1) } := by
  obtain ⟨n, rfl⟩ := himp
  have hop : a.instr.extractLsb' 0 7 = Opcode.csr := by rw [hi]; exact opcode_assemble ..
  have hfun : a.instr.extractLsb' 12 3 = funct3 := by rw [hi]; exact funct3_assemble ..
  have hrd : a.instr.extractLsb' 7 5 = rd := by rw [hi]; exact rd_assemble ..
  have hrs1 : a.instr.extractLsb' 15 5 = rs1 := by rw [hi]; exact rs1_assemble ..
  have himm : a.instr.extractLsb' 20 12 = n.addr := by rw [hi]; exact imm_iType ..
  have hx : a.de.rdata1E = s.reg rs1 := by
    rw [← h.reg, ← hrs1]
    rfl
  have hr : a.de.csrRdataE = s.csr n.addr := by
    rw [← h.csr, ← Csr.read_addr, ← himm]
    change a.csr.read (mulcuDecoder a.instr).csrRaddr = _
    unfold mulcuDecoder
    rw [hop, hfun]
    rcases hf with rfl | rfl <;> rfl
  have heffect : a.effect = ⟨some (rd, s.csr n.addr), s.pc + 4#32, none, none⟩ := by
    rw [← hr, ← hrd, ← h.pc]
    exact execute_of_csr _ _ _ _ _ _ _ _ _ hop (by rw [hfun]; exact hf)
  have hport : a.csrPort = ⟨true, n.addr,
      if funct3 = 0b001#3 then s.reg rs1 else s.csr n.addr ||| s.reg rs1⟩ := by
    rw [← hr, ← hx, ← himm, ← hfun, BitVec.or_comm]
    exact csrPort_of_csr _ _ _ _ _ _ _ _ _ hop (by rw [hfun]; exact hf)
  refine h.next_of_effect (by rw [heffect]) (fun r => ?_) (by rw [heffect]) fun m => ?_
  · rw [heffect]
    exact State.setReg_reg s rd r _
  · rw [hport, Csr.get_edge_of_implemented _ rfl ⟨n, rfl⟩]
    by_cases hm : m = n
    · subst hm
      simp
    · have hne : m.addr ≠ n.addr := fun he => hm (CsrName.addr_inj.mp he)
      simp [hne, h.csr]

/-- The sequential machine executes every encoded instruction as it is specified. -/
theorem next {i : SysInstr} (hi : a.instr = i.encode) (hcsr : CsrsImplemented i)
    (heven : s.EvenTarget i) : a.next.Implements (s.exec i) := by
  cases i with
  | base i =>
    have he := h.effect_base hi heven
    have hport : a.csrPort.csrWe = false := by
      change ((controlD a.instr).csrCtrlE != 0#2) = false
      rw [hi, show (SysInstr.base i).encode = i.encode from rfl, csrCtrlE_of_encode]
      rfl
    refine h.next_of_effect (by rw [he]; rfl) (fun r => ?_) (by rw [he]; rfl) fun n => ?_
    · rw [he]
      change (if r = 0#5 then 0#32 else (s.exec (.base i)).regs r) = _
      simp only [State.exec]
      rcases hd : (s.effect i).dest with _ | ⟨rd, v⟩
      · rfl
      · exact State.setReg_reg s rd r v
    · rw [Csr.edge_of_not_csrWe _ hport]
      exact (h.csr n).symm
  | csrrw rd csr rs1 => exact h.next_csr hcsr (.inl rfl) hi
  | csrrs rd csr rs1 => exact h.next_csr hcsr (.inr rfl) hi
  | mret =>
    have hr : a.de.csrRdataE = s.csr mepc := by
      rw [show mepc = CsrName.mepc.addr from rfl, ← h.csr, ← Csr.read_addr]
      change a.csr.read (mulcuDecoder a.instr).csrRaddr = _
      rw [hi]
      rfl
    have hde : a.de = bufferDEIn SysInstr.mret.encode a.pc false a.de.rdata1E a.de.rdata2E
        a.de.csrRdataE := by
      rw [← hi]
      rfl
    obtain ⟨v, hv⟩ := execute_of_mret a.pc a.de.rdata1E a.de.rdata2E a.rdata a.de.rdata1E
      a.de.rdata2E a.de.csrRdataE false
    have heffect : a.effect = ⟨some (0#5, v), s.csr mepc, none, none⟩ := by
      rw [Arch.effect, ← hr, ← hv, ← hde]
    have hport : a.csrPort.csrWe = false := by
      change ((controlD a.instr).csrCtrlE != 0#2) = false
      rw [hi]
      rfl
    refine h.next_of_effect (by rw [heffect]; rfl) (fun r => ?_) (by rw [heffect]; rfl)
      fun n => ?_
    · rw [heffect]
      by_cases hr0 : r = 0#5
      · rw [hr0]
        rfl
      · simp only [if_neg hr0]
        rfl
    · rw [Csr.edge_of_not_csrWe _ hport]
      exact (h.csr n).symm

end Arch.Implements

end RV32Pipeline
