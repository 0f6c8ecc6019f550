import RV32Pipeline.Machine.System

/-!
# The top module `npc.v`

The core with the register `ReadData_M_valid_reg`, which answers the reads on the data bus: it is
raised a cycle after `MemRead_M` and falls a cycle later. `npc` and `myCPU` have the same register.
The words on the two read channels are inputs here, so that a run covers any memories, and any
peripherals on the data bus.
-/

namespace RV32Pipeline

/-- The words on the two read channels in a cycle. -/
structure BusWords where
  instAxiRdata : Word
  dataAxiRdata : Word

/-- The core and `ReadData_M_valid_reg`. -/
structure Npc where
  core : Datapath
  readDataMValidReg : Bool

namespace Npc

variable (rst : Bool) (w : BusWords) (y : Npc)

/-- The inputs of the core: `data_axi_rvalid` is the register. -/
def input : DatapathIn := ⟨rst, w.instAxiRdata, w.dataAxiRdata, y.readDataMValidReg⟩

/-- The registers after a clock edge. -/
def next : Npc where
  core := y.core.step (y.input rst w)
  readDataMValidReg := if rst then false else y.core.em.memReadM && !y.readDataMValidReg

/-- One clock edge out of reset. -/
def step (w : BusWords) (y : Npc) : Npc := y.next false w

theorem step_core : (y.step w).core = y.core.edge (y.input false w) y.core.lookup := rfl

theorem step_readDataMValidReg :
    (y.step w).readDataMValidReg = (y.core.em.memReadM && !y.readDataMValidReg) := rfl

/-- Whether D takes a word does not depend on the words on the read channels. -/
theorem readyD_input (w' : BusWords) :
    y.core.readyD (y.input rst w) = y.core.readyD (y.input rst w') := rfl

/-- The outputs of the core in a cycle. -/
def out : DatapathOut := y.core.out (y.input rst ⟨0#32, 0#32⟩)

/-- The words that memories which answer at once put on the read channels. -/
def words (m : Memories) : BusWords := ⟨m.fetch y.core.pcRegF, m.load y.core.em.aluResultM⟩

/-- The output `valid_W` of the core, which `get_validW` reads. -/
def validW : Bool := y.core.ctl.validW

/-- The registers are as an edge with `rst = 1` leaves them. -/
def AfterReset (y : Npc) : Prop := ∃ p w, y = next true w p

/-- The registers after reset at the start of a simulation. -/
def reset : Npc := next true ⟨0#32, 0#32⟩ ⟨Datapath.powerOn, false⟩

theorem afterReset_reset : reset.AfterReset := ⟨_, _, rfl⟩

namespace AfterReset

variable {y} (h : y.AfterReset)
include h

theorem core : y.core.AfterReset := by
  obtain ⟨p, w, rfl⟩ := h
  exact ⟨p.core, p.input true w, p.core.lookup, rfl, rfl⟩

end AfterReset

end Npc

/-- A run of `npc` from reset, with the words `w` on its read channels. -/
structure NpcRun (w : ℕ → BusWords) (y : ℕ → Npc) : Prop where
  /-- The run starts after reset. -/
  reset : (y 0).AfterReset
  /-- Each cycle is one clock edge. -/
  step : ∀ t, y (t + 1) = (y t).step (w t)

namespace NpcRun

variable {w : ℕ → BusWords} {y : ℕ → Npc}

/-- The run that starts after reset. -/
theorem of_run {y₀ : Npc} (h : y₀.AfterReset) (w : ℕ → BusWords) :
    NpcRun w (Clocked.run Npc.step y₀ w) := ⟨h, fun _ => rfl⟩

variable (h : NpcRun w y)
include h

/-- The core in a run of `npc`. -/
theorem coreRun : CoreRun (fun t => (y t).input false (w t)) (fun t => (y t).core.lookup)
    fun t => (y t).core where
  reset := h.reset.core
  edge t := by rw [h.step]; rfl
  rst _ := rfl

end NpcRun

end RV32Pipeline
