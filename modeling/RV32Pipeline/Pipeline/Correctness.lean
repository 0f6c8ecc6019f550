import RV32Pipeline.Pipeline.Program

/-!
# The pipeline executes RV32I programs

For every program of base instructions, every memory, every timing of the responses, and every state
before reset, the pipeline writes back the instructions of the sequential machine one by one, with
its registers, and offers its stores in order. A loop that stores serves as an example.
-/

namespace RV32Pipeline

/-- The store that enters M at an edge, if the instruction in E is one. -/
def Datapath.storeEntersM (s : Datapath) (i : DatapathIn) : Option Write :=
  if s.ctl.validE && s.readyM i then s.emIn.write else none

/-- The stores that enter M are those of the sequential machine, in order: as many of its
instructions as have entered M. -/
theorem storeEntersM_log {inp : ℕ → DatapathIn} {look : ℕ → Lookup} {s : ℕ → Datapath}
    {m : ℕ → Memories} (hrun : MemRun inp look s m)
    (hsim : ∀ t, Sim (seqRun (m 0)) (retired s t) (s t) (m t)) (t : ℕ) :
    Clocked.log (fun u => (s u).storeEntersM (inp u)) t =
      Clocked.log (fun n => (seq (m 0) n).em.write) ((s t).idxE (retired s t)) := by
  refine Clocked.log_follow (d := fun u => (s u).idxE (retired s u)) ?_ (fun u => ?_) t
  · simp only [Datapath.idxE, Datapath.idxM, Datapath.occM, retired, hrun.reset.ctl, ValidCtrl.validW]
    rfl
  · have h := hsim u
    have hrst := hrun.rst u
    rw [retired_succ, hrun.edge]
    cases hr : (s u).readyM (inp u)
    · left
      rw [Datapath.idxE_edge_of_not_readyM hrst h.inv hr]
      simp [Datapath.storeEntersM, hr]
    · rw [Datapath.idxE_edge_of_readyM hrst h.inv hr, Datapath.idxD]
      rcases Bool.eq_false_or_eq_true (s u).ctl.validE with hv | hv
      · right
        rw [Datapath.storeEntersM, hv, hr]
        exact ⟨(h.ex hv).emIn.write, rfl⟩
      · left
        simp [Datapath.storeEntersM, hv]

/-- For every program of base instructions, every timing of the responses, and every state before
reset: an instruction that writes back is the next one of the sequential machine, and finds the
registers as the earlier ones leave them there; and the stores that enter M are a prefix of the
stores of the sequential machine. -/
theorem pipeline_correct (y₀ : System) (bus : ℕ → Bus) (hreset : y₀.core.AfterReset)
    (hprog : BaseProgram y₀.mem) (t : ℕ) :
    let y := Clocked.run System.step y₀ bus
    let n := Nat.count (fun u => (y u).core.ctl.validW = true) t
    ((y t).core.ctl.validW = true →
      (y t).core.mw.pcRegW = (seq y₀.mem n).pc ∧
        ∀ r, r ≠ 0#5 → (y t).core.rf r = (seq y₀.mem n).rf r) ∧
      ∃ k, Clocked.log (fun u => (y u).core.storeEntersM ((y u).input (bus u))) t =
        Clocked.log (fun k => (seq y₀.mem k).em.write) k := by
  intro y n
  have hrun := System.memRun_step y₀ bus hreset
  have hsim := fun u => (hprog.hazardFree.run hrun (fun _ _ => rfl) u).1
  refine ⟨fun hv => ⟨((hsim t).wb hv).pc, (hsim t).rf⟩, _, storeEntersM_log hrun hsim t⟩

/-! ## A program that stores in a loop -/

/-- The words `sw x0, 256(x0)` and `jal x0, -4` at the reset address. -/
def storeLoop : Memories :=
  let image := ByteMem.ofWords pcRst [0x10002023#32, 0xffdff06f#32]
  ⟨true, image, image⟩

/-- The states of the loop: it is at one of its two words, with the registers as after reset and the
code in memory. -/
structure StoreLoop (a : Arch) : Prop where
  pc : a.pc = 0x80000000#32 ∨ a.pc = 0x80000004#32
  reset : a.AtReset
  first : a.mem.fetch 0x80000000#32 = 0x10002023#32
  second : a.mem.fetch 0x80000004#32 = 0xffdff06f#32

namespace StoreLoop

variable {a : Arch} (h : StoreLoop a)
include h

/-- The next instruction as it enters E. -/
theorem de : a.de = bufferDEIn 0x10002023#32 0x80000000#32 false 0#32 0#32 0#32 ∧
      a.instr = 0x10002023#32 ∨
    a.de = bufferDEIn 0xffdff06f#32 0x80000004#32 false 0#32 0#32 0#32 ∧
      a.instr = 0xffdff06f#32 := by
  rcases h.pc with hpc | hpc
  · have hinstr : a.instr = 0x10002023#32 := by rw [Arch.instr, hpc, h.first]
    exact .inl ⟨by rw [h.reset.de, hinstr, hpc]; rfl, hinstr⟩
  · have hinstr : a.instr = 0xffdff06f#32 := by rw [Arch.instr, hpc, h.second]
    exact .inr ⟨by rw [h.reset.de, hinstr, hpc]; rfl, hinstr⟩

/-- The loop stores at most to the word at 256. -/
theorem write : ∀ w ∈ a.em.write, w = (0x100#32, 0#32, 0xf#4) := by
  intro w hw
  rw [Arch.em] at hw
  rcases h.de with ⟨hde, -⟩ | ⟨hde, -⟩
  · have hsome : (a.de.emIn a.de.rdata1E a.de.rdata2E).write = some (0x100#32, 0#32, 0xf#4) := by
      rw [hde]
      decide
    rw [hsome] at hw
    exact (Option.some.inj hw).symm
  · have hnone : (a.de.emIn a.de.rdata1E a.de.rdata2E).write = none := by
      rw [hde]
      decide
    rw [hnone] at hw
    contradiction

/-- The loop goes on. -/
theorem next : StoreLoop a.next where
  pc := by
    change a.de.pcCorrectionPath _ _ = _ ∨ a.de.pcCorrectionPath _ _ = _
    rcases h.de with ⟨hde, -⟩ | ⟨hde, -⟩ <;> rw [hde] <;> decide
  reset := by
    have hw : a.mw.csrWenW = (a.de.csrCtrlE != 0#2) := rfl
    refine h.reset.next ?_ ?_
    · rcases h.de with ⟨hde, -⟩ | ⟨hde, -⟩ <;> rw [hde] <;> decide
    · rw [hw]
      rcases h.de with ⟨hde, -⟩ | ⟨hde, -⟩ <;> rw [hde] <;> rfl
  first := by rw [Arch.fetch_next _ fun w hw => by rw [h.write w hw]; decide, h.first]
  second := by rw [Arch.fetch_next _ fun w hw => by rw [h.write w hw]; decide, h.second]

end StoreLoop

theorem storeLoop_seq (n : ℕ) : StoreLoop (seq storeLoop n) := by
  induction n with
  | zero => exact ⟨.inl rfl, ⟨fun _ _ => rfl, rfl⟩, by decide, by decide⟩
  | succ n ih => exact ih.next

/-- The loop is a program of base instructions. -/
theorem storeLoop_baseProgram : BaseProgram storeLoop where
  base n := by
    rcases (storeLoop_seq n).de with ⟨-, hi⟩ | ⟨-, hi⟩ <;> rw [hi] <;> decide
  aligned n hj := by
    rw [Arch.target]
    rcases (storeLoop_seq n).de with ⟨hde, hi⟩ | ⟨hde, hi⟩
    · rw [hi] at hj
      exact absurd hj (by decide)
    · rw [hde]
      decide
  fixed n k w h := by
    rw [(storeLoop_seq n).write w h]
    rcases (storeLoop_seq k).pc with hp | hp <;> rw [hp] <;> decide

/-- The run of the loop with every response in its first cycle. -/
def storeLoopRun : ℕ → System :=
  Clocked.run System.step ⟨Datapath.reset, storeLoop⟩ fun _ => ⟨true, 0#32, 0#32⟩

/-- The run of the loop is a run over memories, and it meets the conditions of the simulation. -/
theorem storeLoopRun_ok :
    MemRun (fun t => (storeLoopRun t).input ⟨true, 0#32, 0#32⟩)
        (fun t => (storeLoopRun t).core.lookup) (fun t => (storeLoopRun t).core)
        (fun t => (storeLoopRun t).mem) ∧
      RunOk (fun t => (storeLoopRun t).core) fun t => (storeLoopRun t).input ⟨true, 0#32, 0#32⟩ :=
  have hrun := System.memRun_step ⟨Datapath.reset, storeLoop⟩ (fun _ => ⟨true, 0#32, 0#32⟩)
    Datapath.afterReset_reset
  ⟨hrun, storeLoop_baseProgram.hazardFree.runOk hrun fun _ _ => rfl⟩

/-- The loop in the pipeline, in a cycle in which an instruction writes back. -/
theorem pipeline_correct_storeLoop :
    let n := Nat.count (fun u => (storeLoopRun u).core.ctl.validW = true) 10
    ((storeLoopRun 10).core.mw.pcRegW = (seq storeLoop n).pc ∧
        ∀ r, r ≠ 0#5 → (storeLoopRun 10).core.rf r = (seq storeLoop n).rf r) ∧
      ∃ k, Clocked.log (fun u => (storeLoopRun u).core.storeEntersM
          ((storeLoopRun u).input ⟨true, 0#32, 0#32⟩)) 10 =
        Clocked.log (fun k => (seq storeLoop k).em.write) k :=
  have h := pipeline_correct ⟨Datapath.reset, storeLoop⟩ (fun _ => ⟨true, 0#32, 0#32⟩)
    Datapath.afterReset_reset storeLoop_baseProgram 10
  ⟨h.1 (by decide +kernel), h.2⟩

end RV32Pipeline
