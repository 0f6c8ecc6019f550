import RV32Pipeline.Machine.NpcHost
import RV32Pipeline.Pipeline.Correctness

/-!
# Cycles without an instruction in M or W

No valid bit gates the write enables: `RegWrite_W`, `csr_ctrl_W`, and `MemWrite_M` keep the values
of the last instruction that has passed, and so do the addresses and the data. An empty stage thus
writes again, in every cycle, what its last instruction has written. That changes nothing, since all
writes of a kind are made from one stage: between the write and its repetition there is no other.
-/

namespace RV32Pipeline

/-- What is behind the write channel: it is as before without a write, and the same write made twice
has the effect of one. -/
structure WriteTarget (μ : Type*) where
  commit : μ → BufferEM → μ
  commit_of_not_write : ∀ m b, b.memWriteM = false → commit m b = m
  commit_commit : ∀ m b, commit (commit m b) b = commit m b

/-- The memories of the core. -/
def Memories.target : WriteTarget Memories where
  commit := Memories.commit
  commit_of_not_write m b hb := by
    rw [Memories.commit, hb]
    rfl
  commit_commit m b := by
    unfold Memories.commit
    split_ifs
    · exact m.store_store b.aluResultM b.writeDataM b.wmask
    · rfl

/-- The array `pmem` of the simulator, which is written at its own addresses. -/
def Host.pmemTarget : WriteTarget (ByteMem 32) where
  commit m b :=
    if b.memWriteM && Host.inPmem b.aluResultM then m.store b.aluResultM b.writeDataM b.wmask else m
  commit_of_not_write m b hb := by
    rw [hb]
    rfl
  commit_commit m b := by
    split_ifs
    · exact ByteMem.store_store m b.aluResultM b.writeDataM b.wmask
    · rfl

/-- Edges in a cycle with an empty W leave the registers, and edges in a cycle with an empty M leave
the memory as it is, whatever the write enables are. -/
structure BubblesNoop {μ : Type*} (s : ℕ → Datapath) (m : ℕ → μ) : Prop where
  writeBack : ∀ t, (s t).ctl.validW = false →
    (s (t + 1)).rf = (s t).rf ∧ (s (t + 1)).csr = (s t).csr
  memory : ∀ t, (s t).ctl.mState = .idle → m (t + 1) = m t

namespace Datapath

variable {s : Datapath} {i : DatapathIn} {l : Lookup} (hrst : i.rst = false)
include hrst

/-- With W empty, an edge writes to the registers what they hold. -/
theorem Inv.writeBack_edge (h : s.Inv) (hv : s.ctl.validW = false) :
    (s.edge i l).rf = s.rf ∧ (s.edge i l).csr = s.csr := by
  obtain ⟨hrf, hcsr⟩ := h.wbStale hv
  rw [edge_rf hrst, edge_csr hrst]
  constructor
  · unfold RegisterFile.next
    rcases hw : s.mw.regWriteW with _ | _
    · rfl
    · simp only [Bool.false_eq_true, if_false, if_true]
      rw [← hrf hw]
      exact Function.update_eq_self _ _
  · unfold Csr.next
    rcases hw : s.mw.csrWenW with _ | _
    · rfl
    · simp only [Bool.false_eq_true, if_false, if_true]
      exact hcsr hw

/-- M is empty after an edge only if nothing has entered it. -/
theorem Inv.em_edge_of_idle (h : s.Inv) (hm : (s.edge i l).ctl.mState = .idle) :
    (s.edge i l).em = s.em := by
  rw [edge_em hrst]
  rcases hr : s.readyM i with _ | _
  · rw [Bool.and_false]
    rfl
  · rw [edge_mState_of_readyM hrst h.mState hr] at hm
    rcases hv : s.ctl.validE with _ | _
    · rfl
    · rw [hv, if_pos rfl] at hm
      split_ifs at hm

end Datapath

section Run

variable {inp : ℕ → DatapathIn} {look : ℕ → Lookup} {s : ℕ → Datapath} (hrun : CoreRun inp look s)
include hrun

/-- With M empty, what is behind the write channel holds what M writes to it. -/
theorem CoreRun.commit_of_idle {μ : Type*} (T : WriteTarget μ) {m : ℕ → μ}
    (hm : ∀ t, m (t + 1) = T.commit (m t) (s t).em) (t : ℕ) (hidle : (s t).ctl.mState = .idle) :
    T.commit (m t) (s t).em = m t := by
  cases t with
  | zero =>
    refine T.commit_of_not_write _ _ ?_
    rw [hrun.reset.em]
    rfl
  | succ t =>
    have hem : (s (t + 1)).em = (s t).em := by
      rw [hrun.edge] at hidle ⊢
      exact (hrun.inv t).em_edge_of_idle (hrun.rst t) hidle
    rw [hem, hm]
    exact T.commit_commit _ _

/-- In a run of the core, whatever the buses and the branch predictor answer, bubbles change
nothing. -/
theorem CoreRun.bubblesNoop {μ : Type*} (T : WriteTarget μ) {m : ℕ → μ}
    (hm : ∀ t, m (t + 1) = T.commit (m t) (s t).em) : BubblesNoop s m where
  writeBack t hv := by
    rw [hrun.edge]
    exact (hrun.inv t).writeBack_edge (hrun.rst t) hv
  memory t hidle := by
    rw [hm]
    exact hrun.commit_of_idle T hm t hidle

end Run

/-- Bubbles change nothing: neither in the core over any memories, with any timing of the responses,
nor in `npc` on the simulator, with any devices. The memories hold any program. -/
theorem bubbles_noop (y₀ : System) (bus : ℕ → Bus) (hreset : y₀.core.AfterReset) (inp : ℕ → NpcIn)
    (z : ℕ → NpcHost) (hz : HostRun inp z) :
    BubblesNoop (fun t => (Clocked.run System.step y₀ bus t).core)
        (fun t => (Clocked.run System.step y₀ bus t).mem) ∧
      BubblesNoop (fun t => (z t).npc.core) fun t => (z t).host.pmem := by
  have hrun := System.memRun_step y₀ bus hreset
  refine ⟨hrun.toCoreRun.bubblesNoop Memories.target hrun.commit,
    hz.npcRun.coreRun.bubblesNoop Host.pmemTarget fun t => ?_⟩
  rw [hz.step]
  exact ((z t).step_effect (inp t)).1

/-- A cycle of the loop of stores in which W is empty and writes to a register. -/
theorem bubbles_noop_storeLoop :
    (storeLoopRun 6).core.ctl.validW = false ∧ (storeLoopRun 6).core.mw.regWriteW = true ∧
      (storeLoopRun 7).core.rf = (storeLoopRun 6).core.rf :=
  have h := bubbles_noop ⟨Datapath.reset, storeLoop⟩ (fun _ => ⟨true, 0#32, 0#32⟩)
    Datapath.afterReset_reset (fun _ => ⟨⟨0#32, 0#64⟩, ⟨0#32, 0#64⟩, 0#8, false, false⟩)
    _ (HostRun.of_init (fun _ => 0#8) _)
  ⟨by decide +kernel, by decide +kernel, (h.1.writeBack 6 (by decide +kernel)).1⟩

end RV32Pipeline
