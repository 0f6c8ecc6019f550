import RV32Pipeline.Host.Memory
import RV32Pipeline.Machine.Npc

/-!
# The top module on the simulator's memory

`npc` with its two instances of `memory`: `u_instr` answers the fetches and `u_memory` the loads and
stores, both through `pmem_read` and `pmem_write` on the variables of the simulator. So a fetch has
effects there as a load has, whether the core executes the word or not.
-/

namespace RV32Pipeline

/-- What a cycle is given: what the devices of the host return to a fetch and to a load, and the
outputs of the UART's receiver and of its FIFO. -/
structure NpcIn where
  inst : Devices
  data : Devices
  uartRxData : BitVec 8
  txDone : Bool
  fifoFull : Bool

/-- The registers of `npc` and the variables of the simulator. -/
structure NpcHost where
  npc : Npc
  host : Host

namespace NpcHost

variable (i : NpcIn) (y : NpcHost) (h : Host)

/-- The wire `inst_axi_arvalid`. -/
def instAxiArvalid : Bool := y.npc.core.readyD (y.npc.input false ⟨0#32, 0#32⟩)

/-- The instance `u_instr`. -/
def uInstr : Word × Host :=
  h.memory i.inst y.npc.core.pcRegF 0#32 0#32 0#4 false y.instAxiArvalid

/-- The instance `u_memory`. -/
def uMemory : Word × Host :=
  h.memory i.data y.npc.core.em.aluResultM y.npc.core.em.aluResultM y.npc.core.em.writeDataM
    y.npc.core.em.wmask y.npc.core.em.memWriteM
    (y.npc.core.em.memReadM || y.npc.core.em.memWriteM)

/-- The wire `UART_CSR`. -/
def uartCsr : Word := 0#27 ++ BitVec.ofBool i.txDone ++ 0#3 ++ BitVec.ofBool i.fifoFull

/-- The wire `data_axi_rdata`. -/
def dataAxiRdata (dataAxiRdataMemory : Word) : Word :=
  if y.npc.core.em.aluResultM = uartDataAddr then i.uartRxData.setWidth 32
  else if y.npc.core.em.aluResultM = uartCtrlAddr then uartCsr i
  else dataAxiRdataMemory

/-- An evaluation of the circuit: the words on the read channels, and what the two memories do. -/
def eval : BusWords × Host :=
  let f := y.uInstr i h
  let d := y.uMemory i f.2
  (⟨f.1, y.dataAxiRdata i d.1⟩, d.2)

/-- The words on the read channels. -/
def words : BusWords := (y.eval i y.host).1

/-- The inputs of the core. -/
def input : DatapathIn := y.npc.input false (y.words i)

/-- One cycle: the evaluation after the edge that led here, the one with `clk = 0`, and the next
edge, at which an ending instruction in W calls `ebreak`. -/
def step : NpcHost where
  npc := y.npc.step (y.words i)
  host :=
    let h := (y.host.evalAndWaveTrace fun h => (y.eval i h).2).evalAndWaveTrace id
    if y.npc.core.mw.ebreakW then { h with state := .ended } else h

theorem readyD_input : y.npc.core.readyD (y.input i) = y.instAxiArvalid :=
  y.npc.readyD_input false (y.words i) ⟨0#32, 0#32⟩

/-- The core is given a fetched word in `pmem`. -/
theorem instAxiRdata_of_inPmem (hv : y.instAxiArvalid = true)
    (ha : Host.inPmem y.npc.core.pcRegF = true) :
    (y.input i).instAxiRdata = y.host.pmem.load y.npc.core.pcRegF := by
  change (y.host.memory i.inst y.npc.core.pcRegF 0#32 0#32 0#4 false y.instAxiArvalid).1 = _
  rw [hv]
  exact Host.memory_of_inPmem i.inst y.host ha _ _ _

/-- The core is given a loaded word in `pmem`. -/
theorem dataAxiRdata_of_inPmem (hr : y.npc.core.em.memReadM = true)
    (hw : y.npc.core.em.memWriteM = false)
    (ha : Host.inPmem y.npc.core.em.aluResultM = true) :
    (y.input i).dataAxiRdata = y.host.pmem.load y.npc.core.em.aluResultM := by
  have hdata : y.npc.core.em.aluResultM ≠ uartDataAddr := fun he => by
    rw [he] at ha
    exact absurd ha (by decide)
  have hctrl : y.npc.core.em.aluResultM ≠ uartCtrlAddr := fun he => by
    rw [he] at ha
    exact absurd ha (by decide)
  have hp := (Host.memory_effect i.inst y.host y.npc.core.pcRegF 0#32 0#32 0#4 false
    y.instAxiArvalid).1
  change y.dataAxiRdata i (y.uMemory i (y.uInstr i y.host).2).1 = _
  rw [dataAxiRdata, if_neg hdata, if_neg hctrl, uMemory, hr, hw,
    Bool.or_false, Host.memory_of_inPmem _ _ ha, uInstr, hp, Bool.and_false, Bool.false_and,
    if_neg Bool.false_ne_true]

/-! ## What a cycle changes on the host -/

/-- An address is read or written by the instruction in M. -/
def accessesM : Bool := y.npc.core.em.memReadM || y.npc.core.em.memWriteM

/-- An access of this cycle is out of bounds. -/
def abortsNow : Bool :=
  y.instAxiArvalid && Host.aborts y.npc.core.pcRegF ||
    y.accessesM && Host.aborts y.npc.core.em.aluResultM

/-- The calls of `mmio_read` in this cycle. -/
def readsNow : List Word :=
  (if y.instAxiArvalid && Host.inMmio y.npc.core.pcRegF then [y.npc.core.pcRegF] else []) ++
    if y.npc.core.em.memReadM && !y.npc.core.em.memWriteM && Host.inMmio y.npc.core.em.aluResultM
    then [y.npc.core.em.aluResultM] else []

/-- What the evaluation changes. -/
theorem eval_effect :
    (y.eval i h).2.pmem =
        (if y.npc.core.em.memWriteM && Host.inPmem y.npc.core.em.aluResultM then
          h.pmem.store y.npc.core.em.aluResultM y.npc.core.em.writeDataM y.npc.core.em.wmask
        else h.pmem) ∧
      (y.eval i h).2.state = (if y.abortsNow then .abort else h.state) ∧
      (y.eval i h).2.mmioReads = h.mmioReads ++ y.readsNow := by
  obtain ⟨hp, hs, hr⟩ := Host.memory_effect i.inst h y.npc.core.pcRegF 0#32 0#32 0#4 false
    y.instAxiArvalid
  obtain ⟨hp', hs', hr'⟩ := Host.memory_effect i.data (y.uInstr i h).2 y.npc.core.em.aluResultM
    y.npc.core.em.aluResultM y.npc.core.em.writeDataM y.npc.core.em.wmask y.npc.core.em.memWriteM
    y.accessesM
  refine ⟨?_, ?_, ?_⟩
  · refine hp'.trans ?_
    rw [uInstr, hp, accessesM]
    cases y.npc.core.em.memWriteM <;> simp
  · refine hs'.trans ?_
    rw [uInstr, hs, abortsNow, ite_self, if_neg Bool.false_ne_true]
    cases y.instAxiArvalid && Host.aborts y.npc.core.pcRegF <;>
      cases y.accessesM && Host.aborts y.npc.core.em.aluResultM <;> rfl
  · refine hr'.trans ?_
    rw [uInstr, hr, readsNow, accessesM, List.append_assoc]
    cases y.npc.core.em.memWriteM <;> simp

/-- What a cycle changes in `pmem`, in the state, and in the log of `mmio_read`. -/
theorem step_effect :
    (y.step i).host.pmem =
        (if y.npc.core.em.memWriteM && Host.inPmem y.npc.core.em.aluResultM then
          y.host.pmem.store y.npc.core.em.aluResultM y.npc.core.em.writeDataM y.npc.core.em.wmask
        else y.host.pmem) ∧
      (y.step i).host.state = (if y.npc.core.mw.ebreakW then .ended
        else if y.abortsNow then .abort else y.host.state) ∧
      (y.step i).host.mmioReads = y.host.mmioReads ++ y.readsNow := by
  obtain ⟨h', ⟨hp, hs, hr⟩, hp', hs', hr'⟩ :=
    y.host.evalAndWaveTrace_effect fun h => (y.eval i h).2
  obtain ⟨h'', ⟨hp₂, hs₂, hr₂⟩, hp₂', hs₂', hr₂'⟩ :=
    (y.host.evalAndWaveTrace fun h => (y.eval i h).2).evalAndWaveTrace_effect id
  obtain ⟨ep, es, er⟩ := y.eval_effect i h'
  rw [ep, hp] at hp'
  rw [es, hs] at hs'
  rw [er, hr] at hr'
  rw [id, hp₂, hp'] at hp₂'
  rw [id, hs₂, hs'] at hs₂'
  rw [id, hr₂, hr'] at hr₂'
  rw [step]
  cases y.npc.core.mw.ebreakW
  · exact ⟨hp₂', hs₂', hr₂'⟩
  · exact ⟨hp₂', rfl, hr₂'⟩

/-- The simulator runs, and the instruction in W does not end the program. -/
def Running : Prop := y.host.state = .running ∧ y.npc.core.mw.ebreakW = false

instance : Decidable y.Running := inferInstanceAs (Decidable (_ ∧ _))

/-- The state is not set to `RUNNING` again. -/
theorem running_of_state_step (h : (y.step i).host.state = .running) :
    y.Running ∧ y.abortsNow = false := by
  have hs := (y.step_effect i).2.1
  rw [h] at hs
  cases he : y.npc.core.mw.ebreakW
  · cases ha : y.abortsNow
    · rw [he, ha] at hs
      exact ⟨⟨hs.symm, he⟩, rfl⟩
    · rw [he, ha] at hs
      contradiction
  · rw [he] at hs
    contradiction

/-- The simulator does not run again once it has stopped. -/
theorem running_of_step (h : (y.step i).Running) : y.Running ∧ y.abortsNow = false :=
  y.running_of_state_step i h.1

/-- The registers after reset, with an image in `pmem`. -/
def init (pmem : ByteMem 32) : NpcHost := ⟨Npc.reset, Host.init pmem⟩

end NpcHost

/-- A run of `npc` on the simulator from reset. -/
structure HostRun (inp : ℕ → NpcIn) (y : ℕ → NpcHost) : Prop where
  /-- The run starts after reset. -/
  reset : (y 0).npc.AfterReset
  /-- The simulator runs. -/
  state : (y 0).host.state = .running
  /-- No device has been read. -/
  mmioReads : (y 0).host.mmioReads = []
  /-- Each cycle is one clock edge. -/
  step : ∀ t, y (t + 1) = (y t).step (inp t)

namespace HostRun

/-- The run of an image. -/
theorem of_init (pmem : ByteMem 32) (inp : ℕ → NpcIn) :
    HostRun inp (Clocked.run NpcHost.step (NpcHost.init pmem) inp) :=
  ⟨Npc.afterReset_reset, rfl, rfl, fun _ => rfl⟩

variable {inp : ℕ → NpcIn} {y : ℕ → NpcHost} (h : HostRun inp y)
include h

/-- The core in a run on the simulator. -/
theorem npcRun : NpcRun (fun t => (y t).words (inp t)) fun t => (y t).npc where
  reset := h.reset
  step t := by rw [h.step]; rfl

/-- The next registers of the core. -/
theorem core_succ (t : ℕ) : (y (t + 1)).npc.core =
    (y t).npc.core.edge ((y t).input (inp t)) (y t).npc.core.lookup := h.npcRun.coreRun.edge t

/-- The simulator has run up to a cycle in which it runs. -/
theorem running_of_le {t u : ℕ} (htu : t ≤ u) (hu : (y u).Running) : (y t).Running := by
  induction u, htu using Nat.le_induction with
  | base => exact hu
  | succ u _ ih =>
    rw [h.step] at hu
    exact ih ((y u).running_of_step (inp u) hu).1

end HostRun

end RV32Pipeline
