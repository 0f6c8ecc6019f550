import RV32Pipeline.Pipeline.Speculation

/-!
# Programs on the memory of the simulator

`HostProgram` is a condition on a sequential run with the answers of the devices: besides what the
pipeline needs, every address that the front end may fetch is in `pmem`, and loads and stores go to
`pmem` and to the registers of the devices that can be read and written. Along the run of the top
module that gives these answers, the pipeline simulates the sequential run, no access is out of
bounds, on the wrong path either, and no `Assert` of the devices fails (`HostExec`).
-/

namespace RV32Pipeline

/-! ## Programs for the simulator -/

/-- A register of a device that `mmio_read` can read: those of the UART, and the two words of the
timer. -/
def Host.readable (addr : Word) : Bool :=
  addr == uartTx || addr == uartStatus || addr == rtcAddr || addr == rtcAddr + 4#32

/-- An instruction in M loads from `pmem` or from a device, and stores to `pmem` or to a device,
except to the status register of the UART. -/
structure BufferEM.HostAccess (b : BufferEM) : Prop where
  read : b.memReadM = true →
    Host.inPmem b.aluResultM = true ∨ Host.readable b.aluResultM = true
  write : b.memWriteM = true → Host.inPmem b.aluResultM = true ∨
    Host.inMmio b.aluResultM = true ∧ b.aluResultM ≠ Host.uartStatus

/-- The program has no hazards, the front end stays in `pmem`, and loads and stores go where they
may. -/
structure HostProgram (σ : ℕ → Arch) : Prop extends HazardFree σ where
  fetch : ∀ p, Fetched σ (fun _ => True) p → Host.inPmem p = true
  access : ∀ n, (σ n).em.HostAccess

/-! ## No call fails -/

namespace Host

variable (dev : Devices) (h : Host)

/-- A register that can be read is one of a device. -/
theorem inMmio_of_readable {addr : Word} (h : readable addr = true) : inMmio addr = true := by
  simp only [readable, Bool.or_eq_true, beq_iff_eq] at h
  rcases h with ((rfl | rfl) | rfl) | rfl <;> decide

/-- An access that no `Assert` forbids. -/
theorem memory_failed {raddr waddr wdata : Word} {wmask : BitVec 4} {wen valid : Bool}
    (hread : valid = true → wen = false → inMmio raddr = true → readable raddr = true)
    (hwrite : valid = true → wen = true → waddr ≠ uartStatus) :
    (memory dev h raddr waddr wdata wmask wen valid).2.failed = h.failed := by
  unfold memory
  cases valid
  · rfl
  · cases wen
    · simp only [if_true, Bool.false_eq_true, if_false, pmemRead]
      cases hm : inMmio raddr
      · cases memoryOutOfBound raddr <;> rfl
      · have ha := hread rfl rfl hm
        simp only [readable, Bool.or_eq_true, beq_iff_eq] at ha
        simp only [if_true, mmioRead, skipRef]
        split_ifs with hu hr ht ht'
        · rfl
        · rfl
        · rfl
        · exact absurd ha (by simp only [hu, ht, ht', or_self, not_false_iff])
        · rfl
    · have ha := hwrite rfl rfl
      simp only [if_true, pmemWrite]
      cases hm : inMmio waddr
      · cases memoryOutOfBound waddr <;> rfl
      · -- A write to a device is to the data register, or ignored.
        simp only [if_true, mmioWrite, uartWrite, ha, or_false, if_false, skipRef]
        simp only [inMmio, Bool.or_eq_true, beq_iff_eq, ha, or_false] at hm
        split_ifs with ht hd hr
        · rfl
        · rfl
        · rfl
        · exact absurd (hm.resolve_left hd) hr

/-- `EvalAndWaveTrace` fails only where the evaluation does. -/
theorem evalAndWaveTrace_failed {e : Host → Host} (he : ∀ h, (e h).failed = h.failed) :
    (h.evalAndWaveTrace e).failed = h.failed := by
  unfold evalAndWaveTrace
  split_ifs
  · exact he _
  · exact he _

end Host

namespace BufferEM.HostAccess

variable {b : BufferEM} (h : b.HostAccess)
include h

/-- The address of such an access is not out of bounds. -/
theorem not_aborts (ha : (b.memReadM || b.memWriteM) = true) :
    Host.aborts b.aluResultM = false := by
  have hpmem : Host.inPmem b.aluResultM = true → Host.aborts b.aluResultM = false := fun hin => by
    rw [Host.inPmem, Bool.and_eq_true, Bool.not_eq_true', Bool.not_eq_true'] at hin
    rw [Host.aborts, hin.1, hin.2]
    rfl
  have hmmio : Host.inMmio b.aluResultM = true → Host.aborts b.aluResultM = false := fun hm => by
    rw [Host.aborts, hm]
    rfl
  rcases Bool.or_eq_true_iff.mp ha with hr | hw
  · exact (h.read hr).elim hpmem fun hd => hmmio (Host.inMmio_of_readable hd)
  · exact (h.write hw).elim hpmem fun hd => hmmio hd.1

omit h in
/-- An instruction that matches one of the program accesses what that does. -/
theorem of_matches {a : Arch} {b' : BufferEM} (hm : MemMatches b' a) (ha : a.em.HostAccess) :
    b'.HostAccess := by
  have hc : a.em.toControlM = b'.toControlM := hm.control.symm
  constructor
  · intro hr
    rw [← (hm.accesses (by rw [hr, Bool.true_or])).2]
    exact ha.read (by rw [hc]; exact hr)
  · intro hw
    rw [← (hm.accesses (by rw [hw, Bool.or_true])).2]
    exact ha.write (by rw [hc]; exact hw)

end BufferEM.HostAccess

/-! ## The program on the top module -/

/-- The pipeline executes the program, and has written back `c` instructions of it. -/
structure HostExec {σ : SeqRun} (h : HostProgram σ) (c : ℕ) (y : NpcHost) : Prop where
  sim : ∃ m, Sim σ c y.npc.core m ∧ Agrees m y.host.pmem
  front : FrontEnd h.toHazardFree.code y.npc.core
  near : FrontNear σ (fun _ => True) y.npc.core
  access : y.npc.core.em.HostAccess
  -- W keeps its last instruction while it is empty.
  ends : y.npc.core.mw.ebreakW = true ↔ ∃ k, y.npc.core.idxM c = k + 1 ∧
    (controlD (σ k).instr).ebreakE = true
  failed : y.host.failed = false

namespace HostExec

variable {σ : SeqRun} {h : HostProgram σ} {c : ℕ} {y : NpcHost} (hx : HostExec h c y) (i : NpcIn)
include hx

/-- Every fetch is in `pmem`. -/
theorem inPmem_pcRegF : Host.inPmem y.npc.core.pcRegF = true := by
  obtain ⟨m, hsim, -⟩ := hx.sim
  exact h.fetch _ (hx.near.fetched_pcRegF hsim trivial)

/-- No access is out of bounds. -/
theorem not_abortsNow : y.abortsNow = false := by
  have hf : Host.aborts y.npc.core.pcRegF = false := by
    have hin := hx.inPmem_pcRegF
    rw [Host.inPmem, Bool.and_eq_true, Bool.not_eq_true', Bool.not_eq_true'] at hin
    rw [Host.aborts, hin.1, hin.2]
    rfl
  rw [NpcHost.abortsNow, hf, Bool.and_false, Bool.false_or, NpcHost.accessesM]
  cases ha : y.npc.core.em.memReadM || y.npc.core.em.memWriteM
  · rfl
  · rw [hx.access.not_aborts ha]
    rfl

omit h c hx in
/-- D takes the word in `pmem`. -/
theorem fetch {m : Memories} (hm : Agrees m y.host.pmem)
    (hin : Host.inPmem y.npc.core.pcRegF = true)
    (hready : y.npc.core.readyD (y.input i) = true) :
    (y.input i).instAxiRdata = m.fetch y.npc.core.pcRegF := by
  have hv : y.instAxiArvalid = true := by rw [← y.readyD_input i]; exact hready
  rw [y.instAxiRdata_of_inPmem i hv hin, hm.fetch hin]

/-- No call of a cycle fails. -/
theorem failed_step : (y.step i).host.failed = false := by
  have hm : Host.inMmio y.npc.core.pcRegF = false := by
    have hin := hx.inPmem_pcRegF
    rw [Host.inPmem, Bool.and_eq_true, Bool.not_eq_true'] at hin
    exact hin.1
  have hpmem : Host.inMmio y.npc.core.em.aluResultM = true →
      Host.inPmem y.npc.core.em.aluResultM = false := fun hd => by
    rw [Host.inPmem, hd]
    rfl
  have heval : ∀ g, (y.eval i g).2.failed = g.failed := fun g => by
    refine (Host.memory_failed i.data _ (fun hv hw hd => ?_) fun _ hw => ?_).trans
      (Host.memory_failed i.inst g (fun _ _ hd => ?_) fun _ hw => ?_)
    · rw [hw, Bool.or_false] at hv
      exact (hx.access.read hv).resolve_left (by rw [hpmem hd]; exact Bool.false_ne_true)
    · intro hs
      rcases hx.access.write hw with hin | ⟨-, hne⟩
      · rw [hs] at hin
        exact absurd hin (by decide)
      · exact hne hs
    · rw [hm] at hd
      contradiction
    · contradiction
  rw [NpcHost.step]
  have h1 := (Host.evalAndWaveTrace_failed
    (y.host.evalAndWaveTrace fun g => (y.eval i g).2) (e := id) fun _ => rfl).trans
      (Host.evalAndWaveTrace_failed y.host heval)
  rw [hx.failed] at h1
  cases y.npc.core.mw.ebreakW
  · exact h1
  · exact h1

/-- One cycle. -/
theorem step (hans : Answers σ c y.npc.core (y.input i)) :
    HostExec h (y.npc.core.idxM c) (y.step i) := by
  obtain ⟨m, hsim, hm⟩ := hx.sim
  have hrst : (y.input i).rst = false := rfl
  have hfetch := fetch i hm hx.inPmem_pcRegF
  have hcore : (y.step i).npc.core = y.npc.core.edge (y.input i) y.npc.core.lookup := rfl
  obtain ⟨hsim', hfront'⟩ := h.toHazardFree.edge hsim hx.front hrst hfetch hans (fun _ => rfl)
  refine ⟨⟨_, hsim', hm.commit rfl hx.not_abortsNow i⟩, hfront',
    hx.near.edge hsim trivial (fun _ => rfl) hrst (fun _ => trivial) hfetch, ?_, ?_,
    hx.failed_step i⟩
  · -- M keeps its signals, or takes those of the next instruction.
    rw [hcore]
    cases hb : y.npc.core.ctl.validE && y.npc.core.readyM (y.input i)
    · rw [Datapath.edge_em hrst, hb]
      exact hx.access
    · rw [Bool.and_eq_true] at hb
      have ho := hsim.inv.occM_edge_of_readyM (l := y.npc.core.lookup) hrst hb.2
      exact BufferEM.HostAccess.of_matches (hsim'.mm (ho.trans hb.1)) (h.access _)
  · have hvW := Datapath.edge_validW (s := y.npc.core) (l := y.npc.core.lookup) hrst
    rw [hcore]
    cases hv : y.npc.core.validM (y.input i)
    · rw [Datapath.edge_mw hrst, Datapath.idxM, hvW, hv]
      exact hx.ends
    · have hc := (hsim'.wb (hvW.trans hv)).control
      rw [Datapath.idxM, hvW, hv, hc]
      constructor
      · exact fun he => ⟨_, rfl, he⟩
      · rintro ⟨k, hk, he⟩
        rw [Nat.add_right_cancel hk]
        exact he

end HostExec

/-- In every cycle of a run over such a program, the pipeline executes it. -/
theorem HostRun.hostExec {inp : ℕ → NpcIn} {y : ℕ → NpcHost} (hrun : HostRun inp y)
    (h : HostProgram (hostProgram inp y)) (hfailed : (y 0).host.failed = false) (t : ℕ) :
    HostExec h (retired (fun u => (y u).npc.core) t) (y t) := by
  induction t with
  | zero =>
    -- After reset nothing has been executed.
    have hr := hrun.reset.core
    refine ⟨hrun.hostSim_zero.sim, FrontEnd.afterReset hr, FrontNear.afterReset hr,
      ⟨fun hread => ?_, fun hwrite => ?_⟩, ?_, hfailed⟩
    · rw [hr.em] at hread
      contradiction
    · rw [hr.em] at hwrite
      contradiction
    · have hzero : (y 0).npc.core.idxM (retired (fun u => (y u).npc.core) 0) = 0 :=
        hrun.idxM_retired 0
      rw [hr.mw, hzero]
      simp [BufferMW.reset]
  | succ t ih =>
    obtain ⟨m, hsim, hm⟩ := ih.sim
    rw [retired_succ, hrun.step]
    exact ih.step (inp t) (hrun.answers hsim hm)

end RV32Pipeline
