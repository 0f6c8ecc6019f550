import RV32Pipeline.Lib.ByteMem
import RV32Pipeline.Rtl.Registers
import RV32Pipeline.Rtl.Stages

/-!
# The sequential machine

A machine that executes one instruction at a time with the core's own decoders, ALU, branch
comparison, and load and store extraction: the stage functions of `Rtl/Stages.lean` composed, with
the operands read from the registers that all earlier instructions have written. It is the meaning
of a program against which the pipeline is measured.
-/

namespace RV32Pipeline

/-- The memories that the instruction and the data bus reach. They are `shared` in `npc.v`, where
both are `pmem`, and a store then shows on both. In `myCPU` they are an instruction ROM and a data
RAM. -/
structure Memories where
  shared : Bool
  imem : ByteMem 32
  dmem : ByteMem 32

namespace Memories

variable (m : Memories)

/-- The word at an address of the instruction bus. -/
def fetch (pc : Word) : Word := m.imem.load pc

/-- The word at an address of the data bus. -/
def load (addr : Word) : Word := m.dmem.load addr

/-- The memories after a write transaction on the data bus. -/
def store (addr data : Word) (wstrb : BitVec 4) : Memories where
  shared := m.shared
  imem := if m.shared then m.imem.store addr data wstrb else m.imem
  dmem := m.dmem.store addr data wstrb

/-- The same transaction made twice has the effect of one. -/
theorem store_store (addr data : Word) (wstrb : BitVec 4) :
    (m.store addr data wstrb).store addr data wstrb = m.store addr data wstrb := by
  cases hs : m.shared <;> simp [store, hs, ByteMem.store_store]

/-- A fetch is not changed by a transaction that misses the word. -/
theorem fetch_store_of_not_overlaps {addr data pc : Word} {wstrb : BitVec 4}
    (h : ¬ ByteMem.Overlaps addr wstrb pc) : (m.store addr data wstrb).fetch pc = m.fetch pc := by
  simp only [fetch, store]
  split_ifs
  · exact ByteMem.load_store_of_not_overlaps h
  · rfl

end Memories

/-- A write transaction: the address, the data, and the byte mask. -/
abbrev Write := Word × Word × BitVec 4

/-- The transaction that an instruction in M makes on the write channel, if it is a store. -/
def BufferEM.write (b : BufferEM) : Option Write :=
  if b.memWriteM then some (b.aluResultM, b.writeDataM, b.wmask) else none

/-- The memories after the transaction of the instruction in M. -/
def Memories.commit (m : Memories) (b : BufferEM) : Memories :=
  if b.memWriteM then m.store b.aluResultM b.writeDataM b.wmask else m

/-- A word that the instruction in M does not write is fetched as before. -/
theorem Memories.fetch_commit (m : Memories) {b : BufferEM} {p : Word}
    (h : ∀ w ∈ b.write, ¬ ByteMem.Overlaps w.1 w.2.2 p) : (m.commit b).fetch p = m.fetch p := by
  unfold Memories.commit
  rcases Bool.eq_false_or_eq_true b.memWriteM with hm | hm
  · have hw : (b.aluResultM, b.writeDataM, b.wmask) ∈ b.write := by rw [BufferEM.write, hm]; rfl
    have hno : ¬ ByteMem.Overlaps b.aluResultM b.wmask p :=
      h (b.aluResultM, b.writeDataM, b.wmask) hw
    rw [if_pos hm]
    exact Memories.fetch_store_of_not_overlaps m hno
  · rw [if_neg (by rw [hm]; decide)]

/-- The state of the sequential machine between two instructions. -/
structure Arch where
  pc : Word
  rf : RegisterFile
  csr : Csr
  mem : Memories

namespace Arch

variable (a : Arch)

/-- The next instruction word. -/
def instr : Word := a.mem.fetch a.pc

/-- The next instruction as it enters E, with the registers that it reads. -/
def de : BufferDE :=
  let d := mulcuDecoder a.instr
  bufferDEIn a.instr a.pc false (a.rf.read d.regRen d.rs1) (a.rf.read d.regRen d.rs2)
    (a.csr.read d.csrRaddr)

/-- The next instruction as it enters M. -/
def em : BufferEM := a.de.emIn a.de.rdata1E a.de.rdata2E

/-- The next instruction as it enters W, when the data bus answers with `rdata`. -/
def mwWith (rdata : Word) : BufferMW := a.em.mwIn rdata

/-- The word that the next instruction reads from memory, if it is a load. -/
def rdata : Word := a.mem.load a.em.aluResultM

/-- The next instruction as it enters W. -/
def mw : BufferMW := a.mwWith a.rdata

/-- The target of the next instruction, if it is a branch, a `jal`, or a `jalr`. -/
def target : Word := a.de.jumpTarget a.de.rdata1E

/-- The state after the next instruction, when the data bus answers with `rdata`. -/
def nextWith (rdata : Word) : Arch where
  pc := a.de.pcCorrectionPath a.de.rdata1E a.de.rdata2E
  rf := a.rf.next false (a.mwWith rdata).regWriteW (a.mwWith rdata).rdW (a.mwWith rdata).wdata
  csr := a.csr.next false (a.mwWith rdata).csrWenW (a.mwWith rdata).csrWaddrW
    (a.mwWith rdata).csrWdataW
  mem := a.mem.commit a.em

/-- The state after the next instruction. -/
def next : Arch := a.nextWith a.rdata

theorem next_csr : a.next.csr = a.csr.next false a.mw.csrWenW a.mw.csrWaddrW a.mw.csrWdataW := rfl

/-- A word that the next instruction does not write is fetched as before. -/
theorem fetch_next {p : Word} (h : ∀ w ∈ a.em.write, ¬ ByteMem.Overlaps w.1 w.2.2 p) :
    a.next.mem.fetch p = a.mem.fetch p := a.mem.fetch_commit h

/-- The word `j 0`, with which a program ends, is its own target. -/
theorem target_of_j0 (h : a.instr = 0x6f#32) : a.target = a.pc := by
  have hc : a.de.toControlE = controlD 0x6f#32 := by rw [← h]; rfl
  have hjal : (controlD 0x6f#32).jalrE = false ∧ (controlD 0x6f#32).immeE = 0#32 := by decide
  have hpc : a.de.pcRegE = a.pc := rfl
  simp only [target, BufferDE.jumpTarget, BufferDE.pcJump, hc, hjal.1, hjal.2, hpc, BitVec.add_zero]
  rfl

/-- The word `j 0` stays where it is, and stores nothing. -/
theorem next_of_j0 (h : a.instr = 0x6f#32) (rdata : Word) :
    (a.nextWith rdata).pc = a.pc ∧ (a.nextWith rdata).mem = a.mem ∧ a.em.write = none := by
  have hc : a.de.toControlE = controlD 0x6f#32 := by rw [← h]; rfl
  have hpc : (a.nextWith rdata).pc = a.pc := by
    rw [← a.target_of_j0 h]
    change a.de.pcCorrectionPath _ _ = _
    simp only [BufferDE.pcCorrectionPath, BufferDE.jumpSign, hc]
    rfl
  have hw : a.em.memWriteM = false := by
    change a.de.memWriteE = _
    rw [hc]
    rfl
  have hmem : (a.nextWith rdata).mem = a.mem := by
    change a.mem.commit a.em = _
    simp [Memories.commit, hw]
  exact ⟨hpc, hmem, by simp [BufferEM.write, hw]⟩

/-- The word `ebreak` goes on to the next word. -/
theorem pc_of_ebreak (h : a.instr = 0x00100073#32) (rdata : Word) :
    (a.nextWith rdata).pc = a.pc + 4#32 := by
  have hc : a.de.toControlE = controlD 0x00100073#32 := by rw [← h]; rfl
  change a.de.pcCorrectionPath _ _ = _
  simp only [BufferDE.pcCorrectionPath, BufferDE.jumpSign, hc]
  rfl

/-- The registers are as after reset. -/
structure AtReset (a : Arch) : Prop where
  rf : ∀ r, r ≠ 0#5 → a.rf r = 0#32
  csr : a.csr = Csr.init

namespace AtReset

variable {a}
variable (h : AtReset a)
include h

/-- The next instruction as it enters E, with every operand 0. -/
theorem de : a.de = bufferDEIn a.instr a.pc false 0#32 0#32
    (Csr.init.read (mulcuDecoder a.instr).csrRaddr) := by
  have hread : ∀ ren r, a.rf.read ren r = 0#32 := fun ren r => by
    by_cases hr : r = 0#5 <;> simp [RegisterFile.read, hr, h.rf r]
  simp only [Arch.de, hread, h.csr]

/-- An instruction whose destination is `x0` and that changes no CSR leaves the registers as they
are. -/
theorem next (hrd : a.de.regWriteE = false ∨ a.de.rdE = 0#5)
    (hcsr : Csr.init.next false a.mw.csrWenW a.mw.csrWaddrW a.mw.csrWdataW = Csr.init) :
    AtReset a.next where
  rf r hr := by
    have hw : a.mw.regWriteW = a.de.regWriteE ∧ a.mw.rdW = a.de.rdE := ⟨rfl, rfl⟩
    change a.rf.next false a.mw.regWriteW a.mw.rdW a.mw.wdata r = _
    rw [RegisterFile.next_apply, h.rf r hr, hw.1, hw.2]
    rcases hrd with hrd | hrd
    · simp [hrd]
    · simp [hrd, Ne.symm hr]
  csr := by
    change a.csr.next false a.mw.csrWenW a.mw.csrWaddrW a.mw.csrWdataW = _
    rw [h.csr, hcsr]

end AtReset

/-- The state that reset leaves, over the given memories. -/
def init (mem : Memories) : Arch := ⟨pcRst, fun _ => 0#32, Csr.init, mem⟩

end Arch

/-- The state of the sequential machine after `n` instructions from reset. -/
def seq (mem : Memories) : ℕ → Arch
  | 0 => Arch.init mem
  | n + 1 => (seq mem n).next

@[simp]
theorem seq_zero (mem : Memories) : seq mem 0 = Arch.init mem := rfl

theorem seq_succ (mem : Memories) (n : ℕ) : seq mem (n + 1) = (seq mem n).next := rfl

/-- A run of the sequential machine, with the word that the data bus answers to each instruction. -/
structure SeqRun where
  state : ℕ → Arch
  rdata : ℕ → Word
  step : ∀ n, state (n + 1) = (state n).nextWith (rdata n)

instance : CoeFun SeqRun fun _ => ℕ → Arch := ⟨SeqRun.state⟩

/-- The run from reset in which loads read the memory. -/
def seqRun (mem : Memories) : SeqRun := ⟨seq mem, fun n => (seq mem n).rdata, seq_succ mem⟩

@[simp]
theorem seqRun_state (mem : Memories) (n : ℕ) : seqRun mem n = seq mem n := rfl

/-- A program that comes to a `j 0` stays there, and stores nothing more. -/
theorem SeqRun.of_j0 {σ : SeqRun} {n k : ℕ} (h : (σ n).instr = 0x6f#32) (hk : n ≤ k) :
    (σ k).pc = (σ n).pc ∧ (σ k).mem = (σ n).mem ∧ (σ k).instr = 0x6f#32 ∧
      (σ k).em.write = none := by
  suffices hstay : (σ k).pc = (σ n).pc ∧ (σ k).mem = (σ n).mem ∧ (σ k).instr = 0x6f#32 from
    ⟨hstay.1, hstay.2.1, hstay.2.2, ((σ k).next_of_j0 hstay.2.2 0#32).2.2⟩
  induction k, hk using Nat.le_induction with
  | base => exact ⟨rfl, rfl, h⟩
  | succ k _ ih =>
    obtain ⟨hpc, hmem, -⟩ := (σ k).next_of_j0 ih.2.2 (σ.rdata k)
    rw [← σ.step] at hpc hmem
    refine ⟨hpc.trans ih.1, hmem.trans ih.2.1, ?_⟩
    rw [Arch.instr, hpc, hmem]
    exact ih.2.2

end RV32Pipeline
