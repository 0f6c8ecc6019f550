import RV32Pipeline.Pipeline.InFlight
import RV32Pipeline.Pipeline.Matches

/-!
# The pipeline simulates the sequential machine

`Sim σ c s m` relates the registers `s` of the core and the memories `m` to a run `σ` of the
sequential machine: `c` instructions have written back, and the instructions in W, M, E, and D are
the next ones of `σ`, in order. A clock edge preserves it (`Sim.edge`) whatever the branch predictor
answers, as long as the response to a load is the word that the load reads in `σ`, and: no redirect
is raised while D stalls, a jump that was predicted taken was predicted to its own target, and what
an instruction that leaves D reads is not still on its way in a form that is not forwarded.
`run_sim` is the resulting statement about runs.
-/

namespace RV32Pipeline

/-! ## The conditions on an edge -/

namespace Datapath

variable (s : Datapath) (i : DatapathIn)

/-- No older instruction that is still in E, M, or W writes the CSR that the instruction in D
reads. -/
structure CsrSafe : Prop where
  e : s.ctl.validE = true → s.de.isCsr = true →
    Csr.idx s.de.csrWaddrE ≠ Csr.idx (mulcuDecoder s.fd.instrD).csrRaddr
  m : s.occM = true → s.em.csrCtrlM ≠ 0#2 →
    Csr.idx s.em.csrWaddrM ≠ Csr.idx (mulcuDecoder s.fd.instrD).csrRaddr
  w : s.ctl.validW = true → s.mw.csrWenW = true →
    Csr.idx s.mw.csrWaddrW ≠ Csr.idx (mulcuDecoder s.fd.instrD).csrRaddr

/-- The instruction in E redirects the fetch at an edge at which D does not stall. -/
def RedirectOk : Prop := s.preWrongValid = true → s.readyM i = true → s.stallD i = false

/-- If the instruction in E jumps as predicted, the instruction in D is the one at its target. -/
def TargetOk : Prop := s.ctl.validE = true → s.preWrong = false → s.de.predictE = true →
  s.fd.pcRegD = s.de.jumpTarget s.src1E

/-- What the instruction that leaves D reads is forwarded to it or already written back. -/
structure ReadsOk : Prop extends s.ForwardOk i where
  csr : s.leavesD i = true → (controlD s.fd.instrD).readsCsr = true → s.CsrSafe

instance : Decidable s.CsrSafe :=
  decidable_of_iff
    ((s.ctl.validE = true → s.de.isCsr = true →
        Csr.idx s.de.csrWaddrE ≠ Csr.idx (mulcuDecoder s.fd.instrD).csrRaddr) ∧
      (s.occM = true → s.em.csrCtrlM ≠ 0#2 →
        Csr.idx s.em.csrWaddrM ≠ Csr.idx (mulcuDecoder s.fd.instrD).csrRaddr) ∧
      (s.ctl.validW = true → s.mw.csrWenW = true →
        Csr.idx s.mw.csrWaddrW ≠ Csr.idx (mulcuDecoder s.fd.instrD).csrRaddr))
    ⟨fun ⟨e, m, w⟩ => ⟨e, m, w⟩, fun ⟨e, m, w⟩ => ⟨e, m, w⟩⟩

instance : Decidable (s.RedirectOk i) := inferInstanceAs (Decidable (_ → _))

instance : Decidable s.TargetOk := inferInstanceAs (Decidable (_ → _))

instance : Decidable (s.ReadsOk i) :=
  decidable_of_iff
    (s.ForwardOk i ∧
      (s.leavesD i = true → (controlD s.fd.instrD).readsCsr = true → s.CsrSafe))
    ⟨fun ⟨fwd, csr⟩ => ⟨fwd, csr⟩, fun ⟨fwd, csr⟩ => ⟨fwd, csr⟩⟩

end Datapath

/-- Instruction `n` finds the words of the next three in memory. -/
def CoherentAt (σ : ℕ → Arch) (n : ℕ) : Prop :=
  ∀ k, k ≤ 3 → (σ n).mem.fetch (σ (n + k)).pc = (σ (n + k)).instr

instance (σ : ℕ → Arch) (n : ℕ) : Decidable (CoherentAt σ n) :=
  inferInstanceAs (Decidable (∀ k, k ≤ 3 → _))

/-- A word that is fetched is in memory by the time that the instruction three before it executes:
the pipeline holds no more instructions than these between the fetch and the write to memory. -/
def Coherent (σ : ℕ → Arch) : Prop := ∀ n, CoherentAt σ n

/-- The response that a load takes at this edge is the word that it reads in `σ`. -/
def Answers (σ : SeqRun) (c : ℕ) (s : Datapath) (i : DatapathIn) : Prop :=
  s.validM i = true → s.em.memReadM = true → i.dataAxiRdata = σ.rdata (s.idxM c)

/-- The registers `s` and the memories `m` are those of a pipeline that executes `σ` and has written
back `c` instructions. -/
structure Sim (σ : SeqRun) (c : ℕ) (s : Datapath) (m : Memories) : Prop where
  inv : s.Inv
  rf : ∀ r, r ≠ 0#5 → s.rf r = (σ c).rf r
  csr : s.csr = (σ c).csr
  mem : m = (σ (s.idxM c)).mem
  wb : s.ctl.validW = true → WbMatches s.mw (σ c) (σ.rdata c)
  mm : s.occM = true → MemMatches s.em (σ (s.idxM c))
  mmStale : s.occM = false → m.commit s.em = m
  ex : s.ctl.validE = true → ExMatches s (σ (s.idxE c))
  -- D holds the next instruction unless E is about to flush it.
  fd : s.ctl.validDReg = true → s.preWrongValid = false →
    s.fd.pcRegD = (σ (s.idxD c)).pc ∧ s.fd.instrD = (σ (s.idxD c)).instr
  restart : s.ctl.validDReg = false → s.ctl.validE = false → s.pcRegF = (σ (s.idxD c)).pc

/-! ## Write-back -/

namespace Sim

variable {σ : SeqRun} {c : ℕ} {s : Datapath} {m : Memories} {i : DatapathIn} {l : Lookup}

section WriteBack

variable (hrst : i.rst = false) (h : Sim σ c s m)
include hrst h

/-- After the edge the register file is the one that the instruction in W leaves. -/
theorem rf_edge {r : BitVec 5} (hr : r ≠ 0#5) : (s.edge i l).rf r = (σ (s.idxM c)).rf r := by
  rw [Datapath.edge_rf hrst]
  cases hv : s.ctl.validW
  · simp only [Datapath.idxM, hv, Bool.toNat_false, Nat.add_zero, ← h.rf r hr, RegisterFile.next]
    by_cases hw : s.mw.regWriteW = true
    · simp only [hw, if_true, Bool.false_eq_true, if_false]
      rw [← (h.inv.wbStale hv).1 hw, Function.update_eq_self]
    · simp [hw]
  · have hn : s.idxM c = c + 1 := by simp [Datapath.idxM, hv]
    rw [hn, σ.step, (h.wb hv).next_rf r, RegisterFile.next_apply, h.rf r hr]

/-- After the edge the CSRs are the ones that the instruction in W leaves. -/
theorem csr_edge : (s.edge i l).csr = (σ (s.idxM c)).csr := by
  rw [Datapath.edge_csr hrst]
  cases hv : s.ctl.validW
  · simp only [Datapath.idxM, hv, Bool.toNat_false, Nat.add_zero, ← h.csr, Csr.next]
    by_cases hw : s.mw.csrWenW = true
    · simp [hw, (h.inv.wbStale hv).2 hw]
    · simp [hw]
  · have hn : s.idxM c = c + 1 := by simp [Datapath.idxM, hv]
    rw [hn, σ.step, (h.wb hv).csrs s.csr, h.csr]
    rfl

end WriteBack

/-! ## The memory stage -/

section Memory

variable (hrst : i.rst = false) (h : Sim σ c s m)
include hrst h

/-- While M waits, the instruction in it is a load, and no write is offered. -/
theorem commit_of_not_readyM (hr : s.readyM i = false) : m.commit s.em = m := by
  obtain ⟨hl, -, -⟩ := Datapath.load_of_not_readyM hrst h.inv.mState hr
  have ho : s.occM = true := by rw [Datapath.occM, hl]; rfl
  have hc := (h.mm ho).control
  have hread : (controlD (σ (s.idxM c)).instr).memReadE = true := by
    have := (h.inv.load ho).mp hl
    rwa [hc] at this
  have hw : s.em.memWriteM = false := by
    rw [hc]; exact (other_of_memReadE hread).1
  simp [Memories.commit, hw]

/-- After the edge the memory is the one that the instruction in M leaves. -/
theorem mem_edge : m.commit s.em = (σ ((s.edge i l).idxM (s.idxM c))).mem := by
  cases hr : s.readyM i
  · rw [Datapath.idxM_edge_of_not_readyM hrst h.inv hr, h.commit_of_not_readyM hrst hr]
    exact h.mem
  · rw [Datapath.idxM_edge_of_readyM hrst h.inv hr, Datapath.idxE]
    cases ho : s.occM
    · rw [h.mmStale ho]
      exact h.mem
    · rw [(h.mm ho).commit, h.mem, Bool.toNat_true, σ.step]
      rfl

/-- Once M is empty, its last write has reached the memory. -/
theorem mmStale_edge (ho : (s.edge i l).occM = false) :
    (m.commit s.em).commit (s.edge i l).em = m.commit s.em := by
  cases hr : s.readyM i
  · rw [(h.inv.occM_edge_of_not_readyM hrst hr).1] at ho
    contradiction
  · rw [h.inv.occM_edge_of_readyM hrst hr] at ho
    have he : (s.edge i l).em = s.em := by rw [Datapath.edge_em hrst, ho]; rfl
    rw [he]
    simp only [Memories.commit]
    split_ifs
    · exact Memories.store_store m _ _ _
    · rfl

/-- The instruction that E hands on is the one in M after the edge. -/
theorem mm_edge (ho : (s.edge i l).occM = true) :
    MemMatches (s.edge i l).em (σ ((s.edge i l).idxM (s.idxM c))) := by
  cases hr : s.readyM i
  · have ho' := (h.inv.occM_edge_of_not_readyM (l := l) hrst hr).2
    have he : (s.edge i l).em = s.em := by rw [Datapath.edge_em hrst, hr, Bool.and_false]; rfl
    rw [he, Datapath.idxM_edge_of_not_readyM hrst h.inv hr]
    exact h.mm ho'
  · rw [h.inv.occM_edge_of_readyM hrst hr] at ho
    have he : (s.edge i l).em = s.emIn := by rw [Datapath.edge_em hrst, ho, hr]; rfl
    rw [he, Datapath.idxM_edge_of_readyM hrst h.inv hr]
    exact (h.ex ho).emIn

omit hrst in
/-- A load leaves M with the word that it reads in `σ`. -/
theorem rdata_of_validM (hans : Answers σ c s i) (hv : s.validM i = true)
    (hl : (controlD (σ (s.idxM c)).instr).memReadE = true) :
    i.dataAxiRdata = σ.rdata (s.idxM c) := by
  have hread : s.em.memReadM = true := by
    rw [(h.mm (Datapath.occM_of_validM hv)).control]
    exact hl
  exact hans hv hread

/-- The instruction that M hands on is the one in W after the edge. -/
theorem wb_edge (hans : Answers σ c s i) (hv : (s.edge i l).ctl.validW = true) :
    WbMatches (s.edge i l).mw (σ (s.idxM c)) (σ.rdata (s.idxM c)) := by
  rw [Datapath.edge_validW hrst] at hv
  have hmw : (s.edge i l).mw = s.mwIn i := by rw [Datapath.edge_mw hrst, hv]; rfl
  rw [hmw]
  exact (h.mm (Datapath.occM_of_validM hv)).mwIn (h.rdata_of_validM hans hv)

omit hrst h in
/-- A bus that returns the words in memory answers the loads. -/
theorem answers {mem : Memories} (h : Sim (seqRun mem) c s m)
    (hload : i.dataAxiRvalid = true → i.dataAxiRdata = m.load s.em.aluResultM) :
    Answers (seqRun mem) c s i := by
  intro hv hread
  have hm := h.mm (Datapath.occM_of_validM hv)
  have hl : (controlD (seqRun mem (s.idxM c)).instr).memReadE = true := by
    rw [hm.control] at hread
    exact hread
  have hst := (h.inv.load (Datapath.occM_of_validM hv)).mpr hread
  have hrv : i.dataAxiRvalid = true := by simpa [Datapath.validM, ValidCtrl.validM, hst] using hv
  rw [hload hrv, h.mem, hm.result (by rw [(load_of_memReadE hl).1]; rfl)]
  rfl

end Memory

end Sim

end RV32Pipeline
