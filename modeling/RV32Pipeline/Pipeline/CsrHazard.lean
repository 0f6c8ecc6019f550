import RV32Pipeline.Pipeline.Program

/-!
# Reads of CSRs

A CSR is read in D and written in W, and nothing stalls or forwards in between. So a read returns
the value of the youngest older write in program order only if no older instruction that is still in
E, M, or W writes the register (`Datapath.CsrSafe`). Two instructions in a row are enough to break
it.
-/

namespace RV32Pipeline

namespace Csr

/-- A write is read back at its own index. -/
theorem read_write_self (c : Csr) {csrWaddr csrRaddr : BitVec 12} (csrWdata : Word)
    (h : idx csrWaddr = idx csrRaddr) : (c.write csrWaddr csrWdata).read csrRaddr = csrWdata := by
  rcases idx_cases csrRaddr with hr | hr | hr | hr <;> simp [write, read, h, hr]

end Csr

/-- What the youngest of the first `n` instructions that write a CSR leaves in it. -/
def youngestCsr (mem : Memories) (addr : BitVec 12) : ℕ → Word
  | 0 => Csr.init.read addr
  | n + 1 =>
    if (seq mem n).mw.csrWenW && Csr.idx (seq mem n).mw.csrWaddrW == Csr.idx addr then
      (seq mem n).mw.csrWdataW
    else youngestCsr mem addr n

/-- The sequential machine reads what the youngest older write left. -/
theorem csr_read_eq_youngestCsr (mem : Memories) (addr : BitVec 12) (n : ℕ) :
    (seq mem n).csr.read addr = youngestCsr mem addr n := by
  induction n with
  | zero => rfl
  | succ n ih =>
    rw [seq_succ, youngestCsr, Arch.next_csr, Csr.next]
    cases hw : (seq mem n).mw.csrWenW
    · exact ih
    · by_cases hi : Csr.idx (seq mem n).mw.csrWaddrW = Csr.idx addr
      · simp [hi, Csr.read_write_self _ _ hi]
      · simp [hi, Csr.read_write_of_ne _ _ hi, ih]

/-- A `csrrw` or `csrrs` reads the CSR that it writes, and an `mret` reads `mepc`. -/
theorem csrRaddr_eq (w : Word) : (mulcuDecoder w).csrRaddr =
    if (controlD w).mretE then 0x341#12 else (controlD w).csrWaddrE := rfl

/-- A `csrrw` or `csrrs` is not an `mret`. -/
theorem not_mretE_of_isCsr {w : Word} (h : (controlD w).isCsr = true) :
    (controlD w).mretE = false := by
  simp only [controlD, mulcuDecoder, ControlE.isCsr] at *
  generalize w.extractLsb' 0 7 = op at *
  generalize w.extractLsb' 12 3 = f3 at *
  have hf : (f3 == 0b000#3) = false := by
    revert op f3
    decide
  simp [hf]

/-- The registers `s` of the core, with `n` instructions written back, read CSRs as the program
says: an instruction in W has read what the youngest older write left, an `mret` in E jumps to what
the youngest older write left in `mepc`, and the CSRs hold what the sequential machine holds. -/
structure CsrReads (mem : Memories) (n : ℕ) (s : Datapath) : Prop where
  read : s.ctl.validW = true → s.mw.csrWenW = true →
    s.mw.pcRegW = (seq mem n).pc ∧ s.mw.csrRdataW = youngestCsr mem s.mw.csrWaddrW n
  mret : s.ctl.validE = true → s.de.mretE = true →
    s.de.pcRegE = (seq mem (s.idxE n)).pc ∧
      s.pcCorrectionPath = youngestCsr mem 0x341#12 (s.idxE n)
  csr : s.csr = (seq mem n).csr

/-- The simulation gives every CSR read its value. -/
theorem Sim.csrReads {mem : Memories} {n : ℕ} {s : Datapath} {m : Memories}
    (h : Sim (seqRun mem) n s m) : CsrReads mem n s where
  read hv hw := by
    have hc : s.mw.toControlW = (controlD (seq mem n).instr).toM.toW := (h.wb hv).control
    have hcsr : (controlD (seq mem n).instr).isCsr = true := by
      rw [BufferMW.csrWenW, hc] at hw
      exact hw
    refine ⟨(h.wb hv).pc, ?_⟩
    rw [(h.wb hv).csr hcsr, ← csr_read_eq_youngestCsr, hc]
    change (seq mem n).csr.read (mulcuDecoder (seq mem n).instr).csrRaddr = _
    rw [csrRaddr_eq, not_mretE_of_isCsr hcsr]
    rfl
  mret hv hm := by
    have hc : s.de.toControlE = controlD (seq mem (s.idxE n)).instr := (h.ex hv).control
    have hm' : (controlD (seq mem (s.idxE n)).instr).mretE = true := by rwa [hc] at hm
    have hr : (controlD (seq mem (s.idxE n)).instr).readsCsr = true := by
      simp [ControlE.readsCsr, hm']
    refine ⟨(h.ex hv).pc, ?_⟩
    rw [Datapath.pcCorrectionPath, BufferDE.pcCorrectionPath, hm, if_pos rfl, (h.ex hv).csr hr,
      ← csr_read_eq_youngestCsr]
    change (seq mem (s.idxE n)).csr.read (mulcuDecoder (seq mem (s.idxE n)).instr).csrRaddr = _
    rw [csrRaddr_eq, hm', if_pos rfl]
  csr := h.csr

/-- Along every run in which each CSR that is read in D is not being written by an instruction in E,
M, or W, and which meets the other conditions of the simulation, every CSR read returns what the
youngest older write left, and the CSRs hold what the sequential machine holds. -/
theorem csrReads_of_runOk (y₀ : System) (bus : ℕ → Bus) (hreset : y₀.core.AfterReset)
    (hco : Coherent (seq y₀.mem))
    (hok : RunOk (fun u => (Clocked.run System.step y₀ bus u).core)
      fun u => (Clocked.run System.step y₀ bus u).input (bus u)) (t : ℕ) :
    let y := Clocked.run System.step y₀ bus
    CsrReads y₀.mem (Nat.count (fun u => (y u).core.ctl.validW = true) t) (y t).core :=
  (run_sim (System.memRun_step y₀ bus hreset) hco hok t).csrReads

/-! ## A CSR that is read back -/

/-- The words `addi x1, x0, 5`, `csrrw x0, mtvec, x1`, three times `nop`, `csrrs x2, mtvec, x0`, and
`j 0` at the reset address. -/
def csrReadBack : Memories :=
  let image := ByteMem.ofWords pcRst [0x00500093#32, 0x30509073#32, 0x13#32, 0x13#32, 0x13#32,
    0x30502173#32, 0x6f#32]
  ⟨true, image, image⟩

/-- The program has no hazard: the `csrrs` is four instructions behind the `csrrw`. -/
theorem csrReadBack_hazardFree : HazardFree (seq csrReadBack) := by
  have hj : (seqRun csrReadBack 6).instr = 0x6f#32 := by decide +kernel
  apply HazardFree.of_j0 hj <;> decide +kernel

/-- The run of the program with every response in its first cycle. -/
def csrReadBackRun : ℕ → System :=
  Clocked.run System.step ⟨Datapath.reset, csrReadBack⟩ fun _ => ⟨true, 0#32, 0#32⟩

/-- In cycle 9 the `csrrs` is in W, and has read the 5 that the `csrrw` has left. -/
theorem csrReads_of_runOk_csrReadBack :
    (csrReadBackRun 9).core.mw.csrRdataW = 5#32 ∧
      (csrReadBackRun 9).core.csr = (seq csrReadBack 5).csr :=
  have hrun := System.memRun_step ⟨Datapath.reset, csrReadBack⟩ (fun _ => ⟨true, 0#32, 0#32⟩)
    Datapath.afterReset_reset
  have h := csrReads_of_runOk ⟨Datapath.reset, csrReadBack⟩ (fun _ => ⟨true, 0#32, 0#32⟩)
    Datapath.afterReset_reset
    (CodeFixed.coherent (σ := seqRun csrReadBack) csrReadBack_hazardFree.fixed)
    (csrReadBack_hazardFree.runOk hrun fun _ _ => rfl) 9
  have hcount : Nat.count (fun u => (csrReadBackRun u).core.ctl.validW = true) 9 = 5 := by
    decide +kernel
  ⟨(h.read (by decide +kernel) (by decide +kernel)).2.trans (by decide +kernel),
    h.csr.trans (congrArg (fun n => (seq csrReadBack n).csr) hcount)⟩

/-! ## Two accesses in a row -/

/-- The words `addi x1, x0, 5`, `csrrw x0, mtvec, x1`, `csrrs x2, mtvec, x0`, and `j 0` at the reset
address. -/
def csrPair : Memories :=
  let image := ByteMem.ofWords pcRst [0x00500093#32, 0x30509073#32, 0x30502173#32, 0x6f#32]
  ⟨true, image, image⟩

/-- The `csrrs` reads `mtvec` in D while the `csrrw` is in E, and returns 0. -/
theorem csrPair_not_csrReads :
    ¬ ∀ t, CsrReads csrPair
      (Nat.count (fun u => (Clocked.run System.step ⟨Datapath.reset, csrPair⟩
        (fun _ => ⟨true, 0#32, 0#32⟩) u).core.ctl.validW = true) t)
      (Clocked.run System.step ⟨Datapath.reset, csrPair⟩ (fun _ => ⟨true, 0#32, 0#32⟩) t).core := by
  intro h
  have hr := ((h 6).read (by decide +kernel) (by decide +kernel)).2
  revert hr
  decide +kernel

end RV32Pipeline
