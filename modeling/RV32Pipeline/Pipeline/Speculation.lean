import Mathlib.Data.Nat.Nth
import RV32Pipeline.Machine.NpcHost
import RV32Pipeline.Machine.SeqHost
import RV32Pipeline.Pipeline.FetchBounds

/-!
# The effects of speculative fetches

A fetch goes through `pmem_read` whether its word is executed or not, so a fetch on the wrong path
that leaves `pmem` sets the state to `ABORT`, or reads a device. All other accesses of a run are
those of the sequential machine: a fetch that is not on the wrong path is of the next instruction
after those in flight, and M accesses what its instruction does. The wrong path is where E finds a
misprediction, in the cycle of the fetch or in the next one, and behind an instruction that ends the
program. So the fetches are without effect where no address that the program lets the front end
predict (`Predicted`) is outside of `pmem`.
-/

namespace RV32Pipeline

/-! ## The wrong path -/

/-- An instruction that ends the program is in D, E, or M. -/
def Datapath.ending (s : Datapath) : Bool :=
  s.ctl.validDReg && (controlD s.fd.instrD).ebreakE || s.ctl.validE && s.de.ebreakE ||
    s.occM && s.em.ebreakM

namespace NpcHost

variable (i : NpcIn) (y : NpcHost)

/-- The word that is fetched in this cycle is not executed. -/
def wrongPath : Bool :=
  y.npc.core.preWrongValid || (y.step i).npc.core.preWrongValid || y.npc.core.ending

end NpcHost

/-- The words that the data bus returns to the instructions of a run, in order: instruction `n` is
the one that is the `n`-th to leave M. -/
noncomputable def dataWords (inp : ℕ → NpcIn) (y : ℕ → NpcHost) (n : ℕ) : Word :=
  let t := Nat.nth (fun t => (y t).npc.core.validM ((y t).input (inp t)) = true) n
  ((y t).input (inp t)).dataAxiRdata

/-- The sequential run of the program in `pmem`, on the devices of the run `y`. -/
noncomputable def hostProgram (inp : ℕ → NpcIn) (y : ℕ → NpcHost) : SeqRun :=
  hostSeqRun (y 0).host.pmem (dataWords inp y)

/-- Speculative fetches have no visible effect, up to the end of the program. -/
structure NoSpeculativeEffect (inp : ℕ → NpcIn) (y : ℕ → NpcHost) : Prop where
  /-- The state is set to `ABORT` only for an address that the program accesses. -/
  abort : ∀ t, (y t).Running → (y (t + 1)).host.state = .abort →
    ∃ addr, Host.memoryOutOfBound addr = true ∧ Accesses (hostProgram inp y) addr
  /-- `mmio_read` is called only for an address that the program loads from. -/
  mmio : ∀ t, (y t).Running → ∀ addr ∈ (y (t + 1)).host.mmioReads, Loads (hostProgram inp y) addr
  /-- A fetch on the wrong path does neither. -/
  wrongPath : ∀ t, (y t).Running → (y t).wrongPath (inp t) = true →
    ((y t).uInstr (inp t) (y t).host).2.state = (y t).host.state ∧
      ((y t).uInstr (inp t) (y t).host).2.mmioReads = (y t).host.mmioReads

/-- Every fetch on the wrong path is in `pmem`. -/
def FetchesInPmem (inp : ℕ → NpcIn) (y : ℕ → NpcHost) : Prop :=
  ∀ t, (y t).Running → (y t).wrongPath (inp t) = true → (y t).instAxiArvalid = true →
    Host.inPmem (y t).npc.core.pcRegF = true

/-- The conditions on the program and on the edges of a run, up to the end of the program: the words
fetched are those executed, none is read from a device, and each edge continues the simulation. -/
structure HostRunOk (inp : ℕ → NpcIn) (y : ℕ → NpcHost) : Prop where
  coherent : ∀ n, Executed (hostProgram inp y) n → CoherentAt (hostProgram inp y) n
  pc : ∀ n, Executed (hostProgram inp y) n → Host.inMmio (hostProgram inp y n).pc = false
  redirect : ∀ t, (y t).Running → (y t).npc.core.RedirectOk ((y t).input (inp t))
  reads : ∀ t, (y t).Running → (y t).npc.core.ReadsOk ((y t).input (inp t))
  target : ∀ t, (y t).Running → (y (t + 1)).npc.core.TargetOk

/-! ## The memory of the sequential machine and `pmem` -/

/-- The memory of the sequential machine is `pmem` from `MBASE` on. Below, it also has what the
program stores to devices. -/
structure Agrees (m : Memories) (pmem : ByteMem 32) : Prop where
  shared : m.shared = true
  imem : ∀ x, Host.mbase ≤ x → m.imem x = pmem x
  dmem : ∀ x, Host.mbase ≤ x → m.dmem x = pmem x

namespace Agrees

variable {m : Memories} {pmem : ByteMem 32} (h : Agrees m pmem)
include h

theorem fetch {pc : Word} (hpc : Host.inPmem pc = true) : m.fetch pc = pmem.load pc :=
  ByteMem.load_congr fun _ hk => h.imem _ (Host.mbase_le_of_inPmem hpc hk)

theorem load {addr : Word} (ha : Host.inPmem addr = true) : m.load addr = pmem.load addr :=
  ByteMem.load_congr fun _ hk => h.dmem _ (Host.mbase_le_of_inPmem ha hk)

/-- A store in `pmem`. -/
theorem store (addr data : Word) (wmask : BitVec 4) :
    Agrees (m.store addr data wmask) (pmem.store addr data wmask) where
  shared := h.shared
  imem x hx := by
    rw [Memories.store, h.shared]
    exact ByteMem.store_congr (h.imem x hx) addr data wmask
  dmem x hx := ByteMem.store_congr (h.dmem x hx) addr data wmask

/-- A store to a device. -/
theorem store_of_inMmio {addr : Word} (ha : Host.inMmio addr = true) (data : Word)
    (wmask : BitVec 4) : Agrees (m.store addr data wmask) pmem := by
  have hw : ∀ x, Host.mbase ≤ x → ¬ ByteMem.Writes addr wmask x := by
    rintro x hx ⟨k, hk, hs⟩
    rw [ByteMem.selects, Bool.and_eq_true, beq_iff_eq] at hs
    have hlt := Host.lt_mbase_of_inMmio ha hk
    rw [← hs.2] at hlt
    exact absurd hx (BitVec.not_le.mpr hlt)
  refine ⟨h.shared, fun x hx => ?_, fun x hx => ?_⟩
  · rw [Memories.store, h.shared]
    exact (ByteMem.store_of_not_writes (hw x hx)).trans (h.imem x hx)
  · exact (ByteMem.store_of_not_writes (hw x hx)).trans (h.dmem x hx)

/-- The transaction of a cycle in which no access is out of bounds. -/
theorem commit {y : NpcHost} (hp : pmem = y.host.pmem) (hab : y.abortsNow = false) (i : NpcIn) :
    Agrees (m.commit y.npc.core.em) (y.step i).host.pmem := by
  rw [(y.step_effect i).1, ← hp]
  rw [NpcHost.abortsNow, Bool.or_eq_false_iff, NpcHost.accessesM] at hab
  cases hw : y.npc.core.em.memWriteM
  · rw [Memories.commit, hw]
    exact h
  · have ha : Host.aborts y.npc.core.em.aluResultM = false := by simpa [hw] using hab.2
    rw [Memories.commit, hw, if_pos rfl, Bool.true_and]
    cases hm : Host.inMmio y.npc.core.em.aluResultM
    · rw [if_pos (Host.inPmem_of_not_aborts hm ha)]
      exact h.store _ _ _
    · have hn : Host.inPmem y.npc.core.em.aluResultM = false := by rw [Host.inPmem, hm]; rfl
      rw [if_neg (by rw [hn]; exact Bool.false_ne_true)]
      exact h.store_of_inMmio hm _ _

end Agrees

/-! ## The simulation up to the end of the program -/

/-- The pipeline executes `σ`, and has written back `c` instructions of it, none of which ends the
program; what it has accessed on the data bus, the program accesses. -/
structure HostSim (σ : SeqRun) (c : ℕ) (y : NpcHost) : Prop where
  sim : ∃ m, Sim σ c y.npc.core m ∧ Agrees m y.host.pmem
  executed : Executed σ (y.npc.core.idxM c)
  access : y.accessesM = true → Accesses σ y.npc.core.em.aluResultM
  load : y.npc.core.em.memReadM = true → Loads σ y.npc.core.em.aluResultM
  log : ∀ addr ∈ y.host.mmioReads, Loads σ addr

namespace HostSim

variable {σ : SeqRun} {c : ℕ} {y : NpcHost} {i : NpcIn} (h : HostSim σ c y)
include h

/-- The instructions in flight do not end the program, unless one of them is in D, E, or M. -/
theorem executed_edge (hend : y.npc.core.ending = false)
    (hr : y.npc.core.readyM (y.input i) = true) :
    Executed σ ((y.step i).npc.core.idxD (y.npc.core.idxM c)) := by
  obtain ⟨m, hsim, -⟩ := h.sim
  have hrst : (y.input i).rst = false := rfl
  simp only [Datapath.ending, Bool.or_eq_false_iff] at hend
  obtain ⟨⟨hD, hE⟩, hM⟩ := hend
  have heM : Executed σ (y.npc.core.idxE c) := h.executed.add_toNat fun ho => by
    have hc := (hsim.mm ho).control
    rw [ho, hc] at hM
    exact hM
  have heE : Executed σ (y.npc.core.idxD c) := heM.add_toNat fun hv => by
    have hc := (hsim.ex hv).control
    rw [hv, hc] at hE
    exact hE
  change Executed σ ((y.npc.core.edge (y.input i) y.npc.core.lookup).idxD (y.npc.core.idxM c))
  rw [Datapath.idxD_edge_of_readyM hrst hsim.inv hr]
  refine heE.add_toNat fun hl => ?_
  rw [← (hsim.fd_of_leavesD hl).2]
  simp only [Datapath.leavesD, Datapath.validD, ValidCtrl.validD, Bool.and_eq_true] at hl
  rw [hl.1.1.1] at hD
  exact hD

section Edge

variable (hans : Answers σ c y.npc.core (y.input i))
  (hreads : y.npc.core.ReadsOk (y.input i)) (htarget : (y.step i).npc.core.TargetOk)
include hans hreads htarget

/-- A fetch that is not on the wrong path is of an instruction of the program. -/
theorem fetch (hw : y.wrongPath i = false) (hv : y.instAxiArvalid = true) :
    ∃ n, Executed σ n ∧ (σ n).pc = y.npc.core.pcRegF := by
  obtain ⟨m, hsim, -⟩ := h.sim
  have hrst : (y.input i).rst = false := rfl
  rw [NpcHost.wrongPath, Bool.or_eq_false_iff, Bool.or_eq_false_iff] at hw
  obtain ⟨⟨hp, hp'⟩, hend⟩ := hw
  have hready : y.npc.core.readyD (y.input i) = true := by rw [y.readyD_input i]; exact hv
  have hr : y.npc.core.readyM (y.input i) = true := by
    rw [Datapath.readyD_eq, Bool.and_eq_true] at hready
    exact hready.2
  exact ⟨_, h.executed_edge hend hr,
    (hsim.pcRegF_of_readyD hrst (hsim.ex_edge hrst hans hreads) htarget hready hp hp').symm⟩

variable (hpmem : y.wrongPath i = true → y.instAxiArvalid = true →
  Host.inPmem y.npc.core.pcRegF = true)
include hpmem

/-- An access out of bounds is one of the program. -/
theorem abort (hab : y.abortsNow = true) :
    ∃ addr, Host.memoryOutOfBound addr = true ∧ Accesses σ addr := by
  have hob (addr : Word) (ha : Host.aborts addr = true) : Host.memoryOutOfBound addr = true := by
    rw [Host.aborts, Bool.and_eq_true] at ha
    exact ha.2
  simp only [NpcHost.abortsNow, Bool.or_eq_true, Bool.and_eq_true] at hab
  rcases hab with ⟨hv, ha⟩ | ⟨hacc, ha⟩
  · refine ⟨_, hob _ ha, ?_⟩
    cases hw : y.wrongPath i
    · obtain ⟨n, hn, hpc⟩ := h.fetch hans hreads htarget hw hv
      exact ⟨n, hn, .inl hpc⟩
    · -- On the wrong path the fetch is in `pmem`.
      have hin := hpmem hw hv
      rw [Host.inPmem, hob _ ha, Bool.not_true, Bool.and_false] at hin
      exact absurd hin Bool.false_ne_true
  · exact ⟨_, hob _ ha, h.access hacc⟩

variable (hpc : ∀ n, Executed σ n → Host.inMmio (σ n).pc = false)
include hpc

/-- No fetch is from a device. -/
theorem inMmio_fetch (hv : y.instAxiArvalid = true) :
    Host.inMmio y.npc.core.pcRegF = false := by
  cases hw : y.wrongPath i
  · obtain ⟨n, hn, hpc'⟩ := h.fetch hans hreads htarget hw hv
    rw [← hpc']
    exact hpc n hn
  · have hin := hpmem hw hv
    rw [Host.inPmem, Bool.and_eq_true, Bool.not_eq_true'] at hin
    exact hin.1

/-- A device is read only by a load of the program. -/
theorem log_step : ∀ addr ∈ (y.step i).host.mmioReads, Loads σ addr := by
  intro addr ha
  rw [(y.step_effect i).2.2, List.mem_append] at ha
  rcases ha with ha | ha
  · exact h.log addr ha
  · rw [NpcHost.readsNow, List.mem_append] at ha
    rcases ha with ha | ha
    · have hno : (y.instAxiArvalid && Host.inMmio y.npc.core.pcRegF) = false := by
        cases hv : y.instAxiArvalid
        · rfl
        · rw [h.inMmio_fetch hans hreads htarget hpmem hpc hv]
          rfl
      rw [hno] at ha
      contradiction
    · split_ifs at ha with hl
      · rw [List.mem_singleton] at ha
        rw [ha]
        simp only [Bool.and_eq_true] at hl
        exact h.load hl.1.1
      · contradiction

/-- In a cycle without an access out of bounds, the word that is fetched is that in `pmem`. -/
theorem instAxiRdata_eq (hab : y.abortsNow = false) {m : Memories} (hm : Agrees m y.host.pmem)
    (hready : y.npc.core.readyD (y.input i) = true) :
    (y.input i).instAxiRdata = m.fetch y.npc.core.pcRegF := by
  have hv : y.instAxiArvalid = true := by rw [← y.readyD_input i]; exact hready
  have ha : Host.aborts y.npc.core.pcRegF = false := by
    rw [NpcHost.abortsNow, Bool.or_eq_false_iff, hv] at hab
    exact hab.1
  have hin := Host.inPmem_of_not_aborts (h.inMmio_fetch hans hreads htarget hpmem hpc hv) ha
  rw [y.instAxiRdata_of_inPmem i hv hin, hm.fetch hin]

/-- A cycle after which the simulator runs continues the simulation. -/
theorem step (hco : ∀ n, Executed σ n → CoherentAt σ n)
    (hredirect : y.npc.core.RedirectOk (y.input i)) (hrun : (y.step i).Running) :
    HostSim σ (y.npc.core.idxM c) (y.step i) := by
  obtain ⟨m, hsim, hm⟩ := h.sim
  have hrst : (y.input i).rst = false := rfl
  obtain ⟨-, hab⟩ := y.running_of_step i hrun
  have hsim' : Sim σ (y.npc.core.idxM c) (y.step i).npc.core (m.commit y.npc.core.em) :=
    hsim.edge (hco _ h.executed) hrst (h.instAxiRdata_eq hans hreads htarget hpmem hpc hab hm) hans
      hredirect hreads htarget
  -- What leaves W has not ended the program.
  have hexec : Executed σ ((y.step i).npc.core.idxM (y.npc.core.idxM c)) :=
    h.executed.add_toNat fun hv => by
      have hc := (hsim'.wb hv).control
      have he := hrun.2
      rw [hc] at he
      exact he
  -- M keeps its signals, or takes those of the next instruction.
  have hem : (y.step i).npc.core.em = y.npc.core.em ∨
      MemMatches (y.step i).npc.core.em (σ ((y.step i).npc.core.idxM (y.npc.core.idxM c))) := by
    change (y.npc.core.edge (y.input i) y.npc.core.lookup).em = _ ∨ _
    cases hb : y.npc.core.ctl.validE && y.npc.core.readyM (y.input i)
    · left
      rw [Datapath.edge_em hrst, hb]
      rfl
    · right
      rw [Bool.and_eq_true] at hb
      refine hsim'.mm ?_
      change (y.npc.core.edge (y.input i) y.npc.core.lookup).occM = true
      rw [hsim.inv.occM_edge_of_readyM hrst hb.2]
      exact hb.1
  refine ⟨⟨_, hsim', hm.commit rfl hab i⟩, hexec, fun hacc => ?_, fun hl => ?_,
    h.log_step hans hreads htarget hpmem hpc⟩
  · rcases hem with hem | hem
    · rw [NpcHost.accessesM, hem] at hacc
      rw [hem]
      exact h.access hacc
    · rw [NpcHost.accessesM] at hacc
      exact ⟨_, hexec, .inr (hem.accesses hacc)⟩
  · rcases hem with hem | hem
    · rw [hem] at hl ⊢
      exact h.load hl
    · obtain ⟨-, haddr⟩ := hem.accesses (by rw [hl, Bool.true_or])
      refine ⟨_, hexec, ?_, haddr⟩
      rw [hem.control] at hl
      exact hl

/-- Such a cycle keeps the front end near the path. -/
theorem near_step (hnear : FrontNear σ (Executed σ) y.npc.core) (hrun : (y.step i).Running)
    (hnext : HostSim σ (y.npc.core.idxM c) (y.step i)) :
    FrontNear σ (Executed σ) (y.step i).npc.core := by
  obtain ⟨m, hsim, hm⟩ := h.sim
  have hab := (y.running_of_step i hrun).2
  have hE : y.npc.core.readyM (y.input i) = true → Executed σ (y.npc.core.idxE c) := fun hr => by
    have hM : (y.step i).npc.core.idxM (y.npc.core.idxM c) = y.npc.core.idxE c :=
      Datapath.idxM_edge_of_readyM rfl hsim.inv hr c
    rw [← hM]
    exact hnext.executed
  exact hnear.edge hsim h.executed (fun _ => rfl) rfl hE
    (h.instAxiRdata_eq hans hreads htarget hpmem hpc hab hm)

end Edge

/-- A fetch on the wrong path is from an address that is predicted. -/
theorem predicted_of_wrongPath (hnear : FrontNear σ (Executed σ) y.npc.core)
    (hw : y.wrongPath i = true) : Predicted σ (Executed σ) y.npc.core.pcRegF := by
  obtain ⟨m, hsim, -⟩ := h.sim
  rcases hnear.fetched with hF | ⟨hvD, hvE⟩
  · exact hF
  · -- With D and E empty, only an instruction in M that ends the program is left.
    have hvE' : (y.step i).npc.core.ctl.validE = false := by
      change (y.npc.core.edge (y.input i) y.npc.core.lookup).ctl.validE = false
      cases hr : y.npc.core.readyM (y.input i)
      · rw [Datapath.edge_validE_of_not_readyM rfl hr, hvE]
      · rw [Datapath.edge_validE_of_readyM rfl hr, Datapath.validD, ValidCtrl.validD, hvD]
        rfl
    rw [NpcHost.wrongPath, Datapath.preWrongValid_of_not_validE hvE,
      Datapath.preWrongValid_of_not_validE hvE', Datapath.ending, hvD, hvE] at hw
    simp only [Bool.false_and, Bool.false_or, Bool.and_eq_true] at hw
    obtain ⟨ho, he⟩ := hw
    have hidx : y.npc.core.idxD c = y.npc.core.idxM c + 1 := by
      rw [Datapath.idxD, Datapath.idxE, hvE, ho]
      rfl
    rw [(hsim.mm ho).control] at he
    rw [hsim.restart hvD hvE, hidx]
    exact predicted_of_ending h.executed he

end HostSim

/-! ## Runs -/

namespace HostRun

variable {inp : ℕ → NpcIn} {y : ℕ → NpcHost} (h : HostRun inp y)
include h

/-- The instruction in M is the one after those that have left it. -/
theorem idxM_retired (t : ℕ) :
    (y t).npc.core.idxM (retired (fun u => (y u).npc.core) t) =
      Nat.count (fun u => (y u).npc.core.validM ((y u).input (inp u)) = true) t := by
  induction t with
  | zero =>
    rw [Datapath.idxM, retired, h.reset.core.ctl]
    rfl
  | succ t ih =>
    have hv : (y (t + 1)).npc.core.ctl.validW = (y t).npc.core.validM ((y t).input (inp t)) := by
      rw [h.core_succ]
      exact Datapath.edge_validW rfl
    have hc : retired (fun u => (y u).npc.core) (t + 1) =
        (y t).npc.core.idxM (retired (fun u => (y u).npc.core) t) := retired_succ _ t
    rw [Nat.count_succ, ← ih, ← hc, Datapath.idxM, hv]
    cases (y t).npc.core.validM ((y t).input (inp t)) <;> rfl

/-- The words of the data bus answer the program. -/
theorem answers {t : ℕ} {m : Memories} (hs : Sim (hostProgram inp y)
      (retired (fun u => (y u).npc.core) t) (y t).npc.core m) (hm : Agrees m (y t).host.pmem) :
    Answers (hostProgram inp y) (retired (fun u => (y u).npc.core) t) (y t).npc.core
      ((y t).input (inp t)) := by
  intro hv hread
  have ho := Datapath.occM_of_validM hv
  have hmm := hs.mm ho
  have hw : (y t).npc.core.em.memWriteM = false := by
    rw [hmm.control] at hread ⊢
    exact (other_of_memReadE hread).1
  have haddr := (hmm.accesses (by rw [hread, Bool.true_or])).2
  change _ = Arch.hostRdata _ (dataWords inp y _)
  rw [Arch.hostRdata]
  split_ifs with hin
  · change (Arch.em (hostSeq _ _ _)).aluResultM = _ at haddr
    rw [Arch.rdata]
    rw [haddr] at hin ⊢
    rw [(y t).dataAxiRdata_of_inPmem (inp t) hread hw hin, ← hm.load hin, hs.mem]
    rfl
  · rw [dataWords, h.idxM_retired, Nat.nth_count hv]

/-- The simulation answers the program. -/
theorem answers_of_hostSim {t : ℕ} (hsim : HostSim (hostProgram inp y)
      (retired (fun u => (y u).npc.core) t) (y t)) :
    Answers (hostProgram inp y) (retired (fun u => (y u).npc.core) t) (y t).npc.core
      ((y t).input (inp t)) := by
  obtain ⟨m, hs, hm⟩ := hsim.sim
  exact h.answers hs hm

/-- After reset nothing is in flight, and nothing has been accessed. -/
theorem hostSim_zero : HostSim (hostProgram inp y) (retired (fun u => (y u).npc.core) 0) (y 0) := by
  have hr := h.reset.core
  refine ⟨⟨⟨true, _, _⟩, Sim.afterReset hr rfl, rfl, fun _ _ => rfl, fun _ _ => rfl⟩,
    ?_, ?_, ?_, ?_⟩
  · intro k hk
    rw [Datapath.idxM, hr.ctl] at hk
    exact absurd hk (Nat.not_lt_zero k)
  · intro ha
    rw [NpcHost.accessesM, hr.em] at ha
    contradiction
  · intro hl
    rw [hr.em] at hl
    contradiction
  · intro addr ha
    rw [h.mmioReads] at ha
    contradiction

/-- In a run that meets the conditions, the simulation goes on to the end of the program. -/
theorem hostSim (hok : HostRunOk inp y) (hpmem : FetchesInPmem inp y) (t : ℕ) (ht : (y t).Running) :
    HostSim (hostProgram inp y) (retired (fun u => (y u).npc.core) t) (y t) := by
  induction t with
  | zero => exact h.hostSim_zero
  | succ t ih =>
    have ht' := h.running_of_le (Nat.le_succ t) ht
    have hsim := ih ht'
    have htarget := hok.target t ht'
    rw [h.step] at htarget ht ⊢
    rw [retired_succ]
    exact hsim.step (h.answers_of_hostSim hsim) (hok.reads t ht') htarget (hpmem t ht') hok.pc
      hok.coherent (hok.redirect t ht') ht

/-- If every address that is predicted is in `pmem`, so is every fetch on the wrong path. -/
theorem fetchesInPmem_of_predicted (hok : HostRunOk inp y)
    (hpred : ∀ p, Predicted (hostProgram inp y) (Executed (hostProgram inp y)) p →
      Host.inPmem p = true) : FetchesInPmem inp y := by
  -- The simulation and the front end go together.
  have hrun : ∀ t, (y t).Running →
      HostSim (hostProgram inp y) (retired (fun u => (y u).npc.core) t) (y t) ∧
        FrontNear (hostProgram inp y) (Executed (hostProgram inp y)) (y t).npc.core := by
    intro t
    induction t with
    | zero => exact fun _ => ⟨h.hostSim_zero, FrontNear.afterReset h.reset.core⟩
    | succ t ih =>
      intro ht
      have ht' := h.running_of_le (Nat.le_succ t) ht
      obtain ⟨hsim, hnear⟩ := ih ht'
      have hans := h.answers_of_hostSim hsim
      have hreads := hok.reads t ht'
      have htarget := hok.target t ht'
      have hpmem : (y t).wrongPath (inp t) = true → (y t).instAxiArvalid = true →
          Host.inPmem (y t).npc.core.pcRegF = true := fun hw _ =>
        hpred _ (hsim.predicted_of_wrongPath hnear hw)
      rw [h.step] at htarget ht ⊢
      rw [retired_succ]
      have hnext := hsim.step hans hreads htarget hpmem hok.pc hok.coherent (hok.redirect t ht') ht
      exact ⟨hnext, hsim.near_step hans hreads htarget hpmem hok.pc hnear ht hnext⟩
  intro t ht hw _
  exact hpred _ ((hrun t ht).1.predicted_of_wrongPath (hrun t ht).2 hw)

/-- In a run that meets the conditions, up to the end of the program: fetches on the wrong path have
no effect, the state is set to `ABORT` only for an address that the program accesses, and devices
are read only by its loads, if and only if every fetch on the wrong path is in `pmem`. -/
theorem noSpeculativeEffect_iff (hok : HostRunOk inp y) :
    NoSpeculativeEffect inp y ↔ FetchesInPmem inp y := by
  constructor
  · intro hn t ht hw hv
    obtain ⟨hstate, hreads⟩ := hn.wrongPath t ht hw
    obtain ⟨-, hs, hr⟩ := Host.memory_effect (inp t).inst (y t).host (y t).npc.core.pcRegF 0#32 0#32
      0#4 false (y t).instAxiArvalid
    rw [NpcHost.uInstr, hs, hv, ht.1] at hstate
    rw [NpcHost.uInstr, hr, hv] at hreads
    -- A fetch outside of `pmem` would read a device or set the state.
    refine Host.inPmem_of_not_aborts ?_ ?_
    · by_contra hm
      rw [Bool.not_eq_false] at hm
      simp [hm] at hreads
    · by_contra ha
      rw [Bool.not_eq_false] at ha
      simp [ha] at hstate
  · intro hpmem
    have hsim := fun t ht => h.hostSim hok hpmem t ht
    have htarget : ∀ t, (y t).Running → ((y t).step (inp t)).npc.core.TargetOk := fun t ht => by
      rw [← h.step]
      exact hok.target t ht
    refine ⟨fun t ht ha => ?_, fun t ht => ?_, fun t ht hw => ?_⟩
    · -- The state, the reads of devices, and the fetches on the wrong path.
      rw [h.step, ((y t).step_effect (inp t)).2.1, ht.1, ht.2, if_neg Bool.false_ne_true] at ha
      split_ifs at ha with hab
      exact (hsim t ht).abort (h.answers_of_hostSim (hsim t ht)) (hok.reads t ht) (htarget t ht)
        (hpmem t ht) hab
    · rw [h.step]
      exact (hsim t ht).log_step (h.answers_of_hostSim (hsim t ht)) (hok.reads t ht) (htarget t ht)
        (hpmem t ht) hok.pc
    · obtain ⟨-, hs, hr⟩ := Host.memory_effect (inp t).inst (y t).host (y t).npc.core.pcRegF 0#32
        0#32 0#4 false (y t).instAxiArvalid
      rw [NpcHost.uInstr, hs, hr]
      cases hv : (y t).instAxiArvalid
      · simp
      · have hin := hpmem t ht hw hv
        rw [Host.inPmem, Bool.and_eq_true, Bool.not_eq_true', Bool.not_eq_true'] at hin
        simp [Host.aborts, hin]

/-- For every run on the simulator that meets the conditions, up to the end of the program: if no
address that the program lets the front end predict is outside of `pmem`, fetches on the wrong path
have no effect, the state is set to `ABORT` only for an address that the program accesses, and
devices are read only by its loads. -/
theorem noSpeculativeEffect_of_predicted (hok : HostRunOk inp y)
    (hpred : ∀ p, Predicted (hostProgram inp y) (Executed (hostProgram inp y)) p →
      Host.inPmem p = true) : NoSpeculativeEffect inp y :=
  (h.noSpeculativeEffect_iff hok).mpr (h.fetchesInPmem_of_predicted hok hpred)

end HostRun

/-! ## Two programs -/

/-- Inputs of a cycle in which no device has anything to say. -/
def quiet : NpcIn := ⟨⟨0#32, 0#64⟩, ⟨0#32, 0#64⟩, 0#8, false, false⟩

/-- The address of a word of an image. -/
def wordAddr (k : ℕ) : Word := pcRst + BitVec.ofNat 32 (4 * k)

theorem wordAddr_add_four (k : ℕ) : wordAddr k + 4#32 = wordAddr (k + 1) := by
  rw [wordAddr, wordAddr, Nat.mul_succ, BitVec.ofNat_add, BitVec.add_assoc]

/-- What the front end may fetch for a program that comes to a `j 0`: its path is within its first
words, and the direct jumps there and in the next word do not go further. -/
theorem inPmem_of_j0 {σ : SeqRun} {e l : ℕ} (hj : (σ e).instr = 0x6f#32)
    (hpath : ∀ n ≤ e, ∃ k < l, (σ n).pc = wordAddr k)
    (hjump : ∀ n ≤ e, ∀ k ≤ l, isDirectJump ((σ n).mem.fetch (wordAddr k)) = true →
      ∃ j ≤ l, directTarget (wordAddr k) ((σ n).mem.fetch (wordAddr k)) = wordAddr j)
    (hin : ∀ k ≤ l + 1, Host.inPmem (wordAddr k) = true) {live : ℕ → Prop} {p : Word}
    (hp : Fetched σ live p) : Host.inPmem p = true := by
  have hpath' : ∀ p, OnPath σ live p → ∃ k < l, p = wordAddr k := by
    have hall (n : ℕ) : ∃ k < l, (σ n).pc = wordAddr k := by
      rcases Nat.le_total n e with hn | hn
      · exact hpath n hn
      · rw [(SeqRun.of_j0 hj hn).1]
        exact hpath e le_rfl
    rintro p ⟨n, -, rfl | rfl⟩
    · exact hall n
    · exact hall (n + 1)
  rcases hp with hp | hp
  · obtain ⟨k, hk, rfl⟩ := hpath' p hp
    exact hin k (by omega)
  · have hbound := hp.of_closed (N := fun q => ∃ k ≤ l, q = wordAddr k) (fun q hq => ?_) ?_
    · rcases hbound with ⟨k, hk, rfl⟩ | ⟨_, ⟨k, hk, rfl⟩, rfl⟩
      · exact hin k (by omega)
      · rw [wordAddr_add_four]
        exact hin (k + 1) (by omega)
    · obtain ⟨k, hk, rfl⟩ := hpath' q hq
      exact ⟨⟨k, by omega, rfl⟩, k + 1, by omega, wordAddr_add_four k⟩
    · -- The words are those at the `j 0`, or before.
      rintro _ w ⟨k, hk, rfl⟩ ⟨n, -, rfl⟩ hd
      rcases Nat.le_total n e with hn | hn
      · exact hjump n hn k hk hd
      · rw [(SeqRun.of_j0 hj hn).2.1] at hd ⊢
        exact hjump e le_rfl k hk hd

/-- The words `lui x1, 0x80000`, `lw x2, 0(x1)`, and `j 0`. -/
def loadAndEnd : ByteMem 32 := ByteMem.ofWords pcRst [0x800000b7#32, 0x0000a103#32, 0x0000006f#32]

namespace LoadAndEnd

/-- The program loads from `pmem` only. -/
theorem seq_eq (device : ℕ → Word) :
    hostSeq loadAndEnd device = hostSeqRun loadAndEnd fun _ => 0#32 :=
  hostSeq_eq_of_j0 (e := 2) (by decide +kernel) fun k hk hl => .inl
    ((by decide +kernel : ∀ k < 2, (hostSeqRun loadAndEnd (fun _ => 0#32) k).em.memReadM = true →
      Host.inPmem (hostSeqRun loadAndEnd (fun _ => 0#32) k).em.aluResultM = true) k hk hl)

/-- The front end goes at most two words beyond the program. -/
theorem inPmem_of_fetched {live : ℕ → Prop} {p : Word}
    (hp : Fetched (hostSeqRun loadAndEnd fun _ => 0#32) live p) : Host.inPmem p = true := by
  have hj : (hostSeqRun loadAndEnd (fun _ => 0#32) 2).instr = 0x6f#32 := by decide +kernel
  exact inPmem_of_j0 (l := 3) hj (by decide +kernel) (by decide +kernel) (by decide) hp

end LoadAndEnd

/-- The run of this program, which ends in cycle 7. -/
def loadAndEndRun : ℕ → NpcHost := Clocked.run NpcHost.step (NpcHost.init loadAndEnd) fun _ => quiet

/-- The run meets the conditions in the cycles before its end. -/
theorem loadAndEndRun_edges : ∀ t < 7, (loadAndEndRun t).npc.core.RedirectOk
        ((loadAndEndRun t).input quiet) ∧
      (loadAndEndRun t).npc.core.ReadsOk ((loadAndEndRun t).input quiet) ∧
      (loadAndEndRun (t + 1)).npc.core.TargetOk := by
  decide +kernel

/-- The fetches of this program have no visible effect. -/
theorem noSpeculativeEffect_loadAndEnd : NoSpeculativeEffect (fun _ => quiet) loadAndEndRun := by
  have hrun : HostRun (fun _ => quiet) loadAndEndRun := HostRun.of_init loadAndEnd _
  have hseq : (hostProgram (fun _ => quiet) loadAndEndRun).state =
      hostSeqRun loadAndEnd fun _ => 0#32 := LoadAndEnd.seq_eq _
  -- The program ends with its third instruction, and the run in cycle 7.
  have hexec : ∀ n, Executed (hostSeqRun loadAndEnd fun _ => 0#32) n → n ≤ 2 := fun n hn =>
    hn.le (by decide +kernel)
  have hco : ∀ n ≤ 2, CoherentAt (hostSeqRun loadAndEnd fun _ => 0#32) n := by decide +kernel
  have hpc : ∀ n ≤ 2, Host.inMmio (hostSeqRun loadAndEnd (fun _ => 0#32) n).pc = false := by
    decide +kernel
  have hend : ∀ t, (loadAndEndRun t).Running → t < 7 := fun t ht => by
    by_contra hlt
    exact absurd (hrun.running_of_le (Nat.le_of_not_lt hlt) ht) (by decide +kernel)
  refine hrun.noSpeculativeEffect_of_predicted ⟨?_, ?_, fun t ht => ?_, fun t ht => ?_,
    fun t ht => ?_⟩ ?_
  · rw [hseq]
    exact fun n hn => hco n (hexec n hn)
  · rw [hseq]
    exact fun n hn => hpc n (hexec n hn)
  · exact (loadAndEndRun_edges t (hend t ht)).1
  · exact (loadAndEndRun_edges t (hend t ht)).2.1
  · exact (loadAndEndRun_edges t (hend t ht)).2.2
  · rw [hseq]
    exact fun p hp => LoadAndEnd.inPmem_of_fetched (.inr hp)

/-- The words `jal x5, 12`, `jal x5, 8`, and `j 0`, then `jalr x0, 0(x5)`, which returns from both
calls, and after it a word of data that decodes as `jal x0, -24`. -/
def dataBehindReturn : ByteMem 32 :=
  ByteMem.ofWords pcRst [0x00c002ef#32, 0x008002ef#32, 0x0000006f#32, 0x00028067#32, 0xfe9ff06f#32]

/-- The run of this program. -/
def dataBehindReturnRun : ℕ → NpcHost :=
  Clocked.run NpcHost.step (NpcHost.init dataBehindReturn) fun _ => quiet

/-- Before its end the program accesses its own words only. -/
theorem dataBehindReturn_accesses : ∀ n ≤ 4,
    (hostSeq dataBehindReturn (fun _ => 0#32) n).em.memReadM = false ∧
      (hostSeq dataBehindReturn (fun _ => 0#32) n).em.memWriteM = false ∧
      Host.memoryOutOfBound (hostSeq dataBehindReturn (fun _ => 0#32) n).pc = false := by
  decide +kernel

/-- The program loads nothing. -/
theorem dataBehindReturn_seq (device : ℕ → Word) {n : ℕ} (hn : n ≤ 4) :
    hostSeq dataBehindReturn device n = hostSeq dataBehindReturn (fun _ => 0#32) n :=
  hostSeq_congr fun k hk hl => by
    rw [(dataBehindReturn_accesses k (by omega)).1] at hl
    contradiction

/-- The first return puts the word of data into D, and this word into the branch target buffer. At
the second return the fetch follows the entry to `0x7ffffff8`, which is not in `pmem`, and the state
is set to `ABORT` before the program comes to its end. -/
theorem dataBehindReturn_aborts :
    ¬ NoSpeculativeEffect (fun _ => quiet) dataBehindReturnRun := by
  intro h
  obtain ⟨addr, hob, n, hn, hacc⟩ := h.abort 9 (by decide +kernel) (by decide +kernel)
  have hseq : ∀ n ≤ 4, hostProgram (fun _ => quiet) dataBehindReturnRun n =
      hostSeq dataBehindReturn (fun _ => 0#32) n := fun _ => dataBehindReturn_seq _
  have hn' : n ≤ 4 := hn.le (by rw [hseq 4 le_rfl]; decide +kernel)
  obtain ⟨hr, hw, hpc⟩ := dataBehindReturn_accesses n hn'
  rw [hseq n hn'] at hacc
  rcases hacc with rfl | ⟨hacc, -⟩
  · rw [hpc] at hob
    contradiction
  · rw [hr, hw] at hacc
    contradiction

end RV32Pipeline
