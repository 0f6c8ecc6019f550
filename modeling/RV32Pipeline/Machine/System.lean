import RV32Pipeline.Lib.Clocked
import RV32Pipeline.Machine.Seq
import RV32Pipeline.Rtl.Datapath

/-!
# The core on its buses

A run of the datapath from reset, with the instruction and the data bus answered by memories. The
answers can come at any time: `data_axi_rvalid` is a free input, and the data of a bus is the memory
word only in the cycles in which the bus says so.
-/

namespace RV32Pipeline

/-- What the buses do in a cycle, besides the memories: whether the response to a read is there, and
the words on the two buses in the cycles in which they carry no response. -/
structure Bus where
  rvalid : Bool
  idleInst : Word
  idleRdata : Word

/-- The core and its memories. -/
structure System where
  core : Datapath
  mem : Memories

namespace System

variable (b : Bus) (y : System)

/-- The output `inst_axi_arvalid` of the core. -/
def instArvalid : Bool := y.core.readyD ⟨false, b.idleInst, b.idleRdata, b.rvalid⟩

/-- The inputs of the core, out of reset. -/
def input : DatapathIn where
  rst := false
  instAxiRdata := if y.instArvalid b then y.mem.fetch y.core.pcRegF else b.idleInst
  dataAxiRdata := if b.rvalid then y.mem.load y.core.em.aluResultM else b.idleRdata
  dataAxiRvalid := b.rvalid

/-- One cycle out of reset, with a given lookup in the branch target buffer. -/
def edge (l : Lookup) : System where
  core := y.core.edge (y.input b) l
  mem := y.mem.commit y.core.em

/-- One cycle of the core out of reset. -/
def step (b : Bus) (y : System) : System := y.edge b y.core.lookup

/-- One cycle, out of reset, of the core with `btb_hit_F` tied to 0. -/
def stepNoHit (b : Bus) (y : System) : System :=
  y.edge b { y.core.lookup with btbHitF := false }

end System

/-- A run of the core from reset, whatever the buses and the branch predictor answer: the registers
`s` at each cycle, with inputs `inp` and lookups `look`. -/
structure CoreRun (inp : ℕ → DatapathIn) (look : ℕ → Lookup) (s : ℕ → Datapath) : Prop where
  /-- The run starts after reset. -/
  reset : (s 0).AfterReset
  /-- Each cycle is one clock edge. -/
  edge : ∀ t, s (t + 1) = (s t).edge (inp t) (look t)
  /-- There is no further reset. -/
  rst : ∀ t, (inp t).rst = false

/-- A run of the core over memories `m`. -/
structure MemRun (inp : ℕ → DatapathIn) (look : ℕ → Lookup) (s : ℕ → Datapath) (m : ℕ → Memories) :
    Prop extends CoreRun inp look s where
  /-- A fetch returns the word in memory. -/
  fetch : ∀ t, (s t).readyD (inp t) = true → (inp t).instAxiRdata = (m t).fetch (s t).pcRegF
  /-- The response to a read is the word in memory. -/
  load : ∀ t, (inp t).dataAxiRvalid = true → (inp t).dataAxiRdata = (m t).load (s t).em.aluResultM
  /-- A write transaction reaches the memory at the end of its cycle. -/
  commit : ∀ t, m (t + 1) = (m t).commit (s t).em

namespace System

/-- A sequence of states of the system in which each cycle uses some lookup is a run over
memories. -/
theorem memRun {y : ℕ → System} {bus : ℕ → Bus} {look : ℕ → Lookup}
    (h0 : (y 0).core.AfterReset) (hs : ∀ t, y (t + 1) = (y t).edge (bus t) (look t)) :
    MemRun (fun t => (y t).input (bus t)) look (fun t => (y t).core) (fun t => (y t).mem) where
  reset := h0
  edge t := by rw [hs]; rfl
  rst t := rfl
  fetch t h := by
    have hv : (y t).instArvalid (bus t) = true := h
    simp [input, hv]
  load t h := by
    have hv : (bus t).rvalid = true := h
    simp [input, hv]
  commit t := by rw [hs]; rfl

/-- The runs of the core. -/
theorem memRun_step (y₀ : System) (bus : ℕ → Bus) (h : y₀.core.AfterReset) :
    let y := Clocked.run step y₀ bus
    MemRun (fun t => (y t).input (bus t)) (fun t => (y t).core.lookup) (fun t => (y t).core)
      fun t => (y t).mem :=
  memRun h fun _ => rfl

/-- The runs of the core with `btb_hit_F` tied to 0. -/
theorem memRun_stepNoHit (y₀ : System) (bus : ℕ → Bus) (h : y₀.core.AfterReset) :
    let y := Clocked.run stepNoHit y₀ bus
    MemRun (fun t => (y t).input (bus t)) (fun t => { (y t).core.lookup with btbHitF := false })
      (fun t => (y t).core) fun t => (y t).mem :=
  memRun h fun _ => rfl

end System

end RV32Pipeline
