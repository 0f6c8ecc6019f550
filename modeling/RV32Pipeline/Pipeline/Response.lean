import RV32Pipeline.Machine.Npc
import RV32Pipeline.Pipeline.InFlight

/-!
# Whose response a load consumes

`ReadData_M_valid_reg` follows `MemRead_M`, which keeps its value while M is empty. So after a load
has left M the register goes on: it is raised again when M has been empty for one cycle, and a load
that enters M behind one empty cycle finds it raised. This happens exactly where a load waits in D
for the load in E.
-/

namespace RV32Pipeline

/-- The instruction in D is a load that waits for the load in E. -/
def Datapath.loadOnLoad (s : Datapath) : Bool :=
  s.ctl.validE && !s.preWrong && s.loadUse && (mulcuDecoder s.fd.instrD).memRen

namespace Npc

variable (y : Npc)

/-- `valid_M` is raised by a response to a read. -/
def consumes : Bool := y.core.ctl.mState == .load && y.readDataMValidReg

/-- A load is about to enter an empty M, and the register is about to be raised for an earlier
load. -/
def earlyResponse : Bool :=
  y.core.ctl.validE && y.core.de.memReadE && !y.core.occM && y.core.em.memReadM &&
    !y.readDataMValidReg

end Npc

/-- The load that consumes a response in cycle `t` was in M in the cycle before, with the same
address. -/
def OwnResponse (y : ℕ → Npc) (t : ℕ) : Prop :=
  (y t).consumes = true → ∃ u, t = u + 1 ∧ (y u).core.ctl.mState = .load ∧
    (y u).core.idxM (retired (fun v => (y v).core) u) =
      (y t).core.idxM (retired (fun v => (y v).core) t) ∧
    (y u).core.em.aluResultM = (y t).core.em.aluResultM

namespace Npc

section Step

variable {y : Npc} (hs : y.core.Inv) (w : BusWords)

/-- With a load in M, M is ready when the register is raised. -/
theorem readyM_of_load (h : y.core.ctl.mState = .load) :
    y.core.readyM (y.input false w) = y.readDataMValidReg := by
  simp only [Datapath.readyM, ValidCtrl.readyM, ValidCtrl.validM, ValidCtrl.readyW, h, input]
  cases y.readDataMValidReg <;> rfl

include hs

/-- M holds a load while it waits. -/
theorem memReadM_of_load (h : y.core.ctl.mState = .load) : y.core.em.memReadM = true :=
  (hs.load (by rw [Datapath.occM, h]; rfl)).mp h

/-- The load that consumes the response of the next cycle is about to enter M early, or waits there
now. -/
theorem consumes_step (h : (y.step w).consumes = true) :
    y.earlyResponse = true ∨ y.core.readyM (y.input false w) = false := by
  simp only [consumes, step_core, step_readDataMValidReg, Bool.and_eq_true, beq_iff_eq,
    Bool.not_eq_true'] at h
  obtain ⟨hl, hm, hv⟩ := h
  cases hr : y.core.readyM (y.input false w)
  · exact .inr rfl
  · left
    rw [Datapath.edge_mState_of_readyM rfl hs.mState hr] at hl
    have ho : y.core.occM = false := by
      by_contra ho
      rw [Bool.not_eq_false] at ho
      rw [readyM_of_load w ((hs.load ho).mpr hm), hv] at hr
      contradiction
    split_ifs at hl with h1 h2
    simp [earlyResponse, h1, h2, ho, hm, hv]

/-- A load that enters M early was not there in the cycle before, and consumes a response at
once. -/
theorem consumes_step_of_earlyResponse (h : y.earlyResponse = true) :
    (y.step w).consumes = true ∧ y.core.ctl.mState ≠ .load := by
  simp only [earlyResponse, Bool.and_eq_true, Bool.not_eq_true'] at h
  obtain ⟨⟨⟨⟨hE, hl⟩, ho⟩, hm⟩, hv⟩ := h
  have hr := Datapath.readyM_of_not_occM (i := y.input false w) ho
  refine ⟨?_, fun hld => ?_⟩
  · simp [consumes, step_core, step_readDataMValidReg,
      Datapath.edge_mState_of_readyM rfl hs.mState hr, hE, hl, hm, hv]
  · rw [Datapath.occM, hld] at ho
    contradiction

end Step

/-! ## The phase of the register -/

/-- The register is in phase with the loads. -/
structure InPhase (y : Npc) : Prop where
  -- A load in E behind an empty M: the register falls at the edge that takes the load into M.
  entering : y.core.occM = false → y.core.em.memReadM = true → y.core.ctl.validE = true →
    y.core.de.memReadE = true → y.readDataMValidReg = true
  -- E and M both empty: the register has just fallen, and D holds the next instruction.
  empty : y.core.occM = false → y.core.em.memReadM = true → y.core.ctl.validE = false →
    y.readDataMValidReg = false ∧ y.core.ctl.validDReg = true
  -- Behind a load in M with E empty, D holds no load.
  behind : y.core.ctl.mState = .load → y.core.ctl.validE = false → y.core.ctl.validDReg = true →
    (mulcuDecoder y.core.fd.instrD).memRen = false

/-- After reset no load has been in M. -/
theorem AfterReset.inPhase {y : Npc} (h : y.AfterReset) : y.InPhase where
  entering _ hm := by rw [h.core.em] at hm; contradiction
  empty _ hm := by rw [h.core.em] at hm; contradiction
  behind hl := by rw [h.core.ctl] at hl; contradiction

/-- An edge that leaves M empty finds E empty. -/
theorem of_step_not_occM {y : Npc} (hs : y.core.Inv) (w : BusWords)
    (ho : (y.step w).core.occM = false) :
    y.core.readyM (y.input false w) = true ∧ y.core.ctl.validE = false ∧
      (y.step w).core.em = y.core.em := by
  rw [step_core] at ho ⊢
  cases hr : y.core.readyM (y.input false w)
  · rw [(hs.occM_edge_of_not_readyM rfl hr).1] at ho
    contradiction
  · rw [hs.occM_edge_of_readyM rfl hr] at ho
    exact ⟨rfl, ho, by rw [Datapath.edge_em rfl, ho]; rfl⟩

namespace InPhase

variable {y : Npc} (h : y.InPhase) (hs : y.core.Inv) (w : BusWords)
include h

theorem not_earlyResponse : y.earlyResponse = false := by
  by_contra he
  simp only [earlyResponse, Bool.not_eq_false, Bool.and_eq_true, Bool.not_eq_true'] at he
  obtain ⟨⟨⟨⟨hE, hl⟩, ho⟩, hm⟩, hv⟩ := he
  rw [h.entering ho hm hE hl] at hv
  contradiction

include hs

theorem entering_step (ho : (y.step w).core.occM = false)
    (hm : (y.step w).core.em.memReadM = true) (hE : (y.step w).core.ctl.validE = true)
    (hl : (y.step w).core.de.memReadE = true) : (y.step w).readDataMValidReg = true := by
  obtain ⟨hr, hvE, hem⟩ := of_step_not_occM hs w ho
  rw [hem] at hm
  rw [step_core, Datapath.edge_validE_of_readyM rfl hr, Bool.and_eq_true] at hE
  rw [step_core, Datapath.edge_de rfl, hE.1, hr] at hl
  have hmem : (mulcuDecoder y.core.fd.instrD).memRen = true := hl
  cases hocc : y.core.occM
  · rw [step_readDataMValidReg, hm, (h.empty hocc hm hvE).1]
    rfl
  · have hD := hE.1
    rw [Datapath.validD, ValidCtrl.validD, Bool.and_eq_true] at hD
    rw [h.behind ((hs.load hocc).mpr hm) hvE hD.1] at hmem
    contradiction

theorem empty_step (ho : (y.step w).core.occM = false)
    (hm : (y.step w).core.em.memReadM = true) (hE : (y.step w).core.ctl.validE = false) :
    (y.step w).readDataMValidReg = false ∧ (y.step w).core.ctl.validDReg = true := by
  obtain ⟨hr, hvE, hem⟩ := of_step_not_occM hs w ho
  rw [hem] at hm
  have hst := Datapath.stallD_of_not_validE hr hvE
  have hp := Datapath.preWrongValid_of_not_validE hvE
  constructor
  · cases hocc : y.core.occM
    · -- E would not be empty: D held the next instruction.
      rw [step_core, Datapath.edge_validE_of_readyM rfl hr, Datapath.validD, ValidCtrl.validD,
        (h.empty hocc hm hvE).2, hst, hp] at hE
      contradiction
    · rw [readyM_of_load w ((hs.load hocc).mpr hm)] at hr
      rw [step_readDataMValidReg, hr, Bool.not_true, Bool.and_false]
  · rw [step_core, Datapath.edge_validDReg_of_readyM rfl hr, hst, hp]
    rfl

theorem behind_step (hc : y.core.loadOnLoad = false) (hl : (y.step w).core.ctl.mState = .load)
    (hE : (y.step w).core.ctl.validE = false) (hD : (y.step w).core.ctl.validDReg = true) :
    (mulcuDecoder (y.step w).core.fd.instrD).memRen = false := by
  rw [step_core] at *
  cases hr : y.core.readyM (y.input false w)
  · rw [Datapath.edge_mState_of_not_readyM rfl hs.mState hr] at hl
    rw [Datapath.edge_validE_of_not_readyM rfl hr] at hE
    rw [Datapath.edge_validDReg_of_not_readyM rfl hr, Bool.and_eq_true] at hD
    rw [Datapath.edge_fd rfl, Datapath.readyD_of_not_readyM hr]
    -- Nothing moves.
    exact h.behind hl hE hD.2
  · rw [Datapath.edge_mState_of_readyM rfl hs.mState hr] at hl
    -- The load in M has come from E.
    have hvE : y.core.ctl.validE = true := by
      by_contra hv
      rw [Bool.not_eq_true] at hv
      rw [hv] at hl
      contradiction
    rw [Datapath.edge_validDReg_of_readyM rfl hr, Bool.and_eq_true, Bool.not_eq_true'] at hD
    have hpw : y.core.preWrong = false := by
      have hp := hD.1
      rwa [Datapath.preWrongValid, hvE, Bool.and_true] at hp
    -- D holds an instruction, so it stays there only by a stall on the load in E.
    have hst : y.core.stallD (y.input false w) = true := by
      rw [Datapath.edge_validE_of_readyM rfl hr, hD.1, Datapath.validD, ValidCtrl.validD,
        hs.full hvE hpw] at hE
      simpa using hE
    rw [Datapath.edge_fd rfl, Datapath.readyD_eq, hst]
    rw [Datapath.stallD_of_readyM hr, hvE, Bool.true_and] at hst
    -- The instruction in D uses the load, so it is no load itself.
    simpa [Datapath.loadOnLoad, hvE, hpw, hst] using hc

/-- The register stays in phase at an edge at which no load waits in D for the load in E. -/
theorem step (hc : y.core.loadOnLoad = false) : (y.step w).InPhase where
  entering := h.entering_step hs w
  empty := h.empty_step hs w
  behind := h.behind_step hs w hc

end InPhase

/-! ## A load that waits for a load -/

/-- A load in D waits behind the load in M, and E is empty. -/
structure Waits (y : Npc) : Prop where
  load : y.core.ctl.mState = .load
  validE : y.core.ctl.validE = false
  validDReg : y.core.ctl.validDReg = true
  memRen : (mulcuDecoder y.core.fd.instrD).memRen = true

namespace Waits

variable {y : Npc} (h : y.Waits) (hs : y.core.Inv) (w : BusWords)
include h hs

/-- With the response of the load in M, the waiting load comes to E, behind an empty M. -/
theorem earlyResponse_step (hv : y.readDataMValidReg = true) :
    (y.step w).earlyResponse = true := by
  have hr : y.core.readyM (y.input false w) = true := by rw [readyM_of_load w h.load, hv]
  have hst := Datapath.stallD_of_not_validE hr h.validE
  have hvD : y.core.validD (y.input false w) = true := by
    rw [Datapath.validD, ValidCtrl.validD, h.validDReg, hst]
    rfl
  -- The waiting load comes to E.
  have hE : (y.step w).core.ctl.validE = true := by
    rw [step_core, Datapath.edge_validE_of_readyM rfl hr, hvD,
      Datapath.preWrongValid_of_not_validE h.validE]
    rfl
  have hde : (y.step w).core.de.memReadE = true := by
    rw [step_core, Datapath.edge_de rfl, hvD, hr]
    exact h.memRen
  -- M is empty, and keeps the signals of the load that has left.
  have ho : (y.step w).core.occM = false := by
    rw [step_core, hs.occM_edge_of_readyM rfl hr, h.validE]
  have hem : (y.step w).core.em = y.core.em := by
    rw [step_core, Datapath.edge_em rfl, h.validE]
    rfl
  have hv' : (y.step w).readDataMValidReg = false := by
    rw [step_readDataMValidReg, hv, Bool.not_true, Bool.and_false]
  simp [earlyResponse, hE, hde, ho, hem, memReadM_of_load hs h.load, hv']

/-- Before the response the load goes on waiting. -/
theorem step (hv : y.readDataMValidReg = false) :
    (y.step w).Waits ∧ (y.step w).readDataMValidReg = true := by
  have hr : y.core.readyM (y.input false w) = false := by rw [readyM_of_load w h.load, hv]
  refine ⟨⟨?_, ?_, ?_, ?_⟩, ?_⟩
  · rw [step_core, Datapath.edge_mState_of_not_readyM rfl hs.mState hr, h.load]
  · rw [step_core, Datapath.edge_validE_of_not_readyM rfl hr, h.validE]
  · rw [step_core, Datapath.edge_validDReg_of_not_readyM rfl hr,
      Datapath.preWrongValid_of_not_validE h.validE, h.validDReg]
    rfl
  · rw [step_core, Datapath.edge_fd rfl, Datapath.readyD_of_not_readyM hr]
    exact h.memRen
  · rw [step_readDataMValidReg, memReadM_of_load hs h.load, hv]
    rfl

end Waits

section LoadOnLoad

variable {y : Npc} (hs : y.core.Inv) (w : BusWords) (h : y.core.loadOnLoad = true)
include hs h

/-- When M is ready, the load in E moves on and the one in D waits behind it. -/
theorem waits_step (hr : y.core.readyM (y.input false w) = true) : (y.step w).Waits := by
  simp only [Datapath.loadOnLoad, Bool.and_eq_true, Bool.not_eq_true'] at h
  obtain ⟨⟨⟨hvE, hpw⟩, huse⟩, hmem⟩ := h
  have hst : y.core.stallD (y.input false w) = true := by
    rw [Datapath.stallD_of_readyM hr, hvE, huse]
    rfl
  have hp : y.core.preWrongValid = false := by rw [Datapath.preWrongValid, hpw]; rfl
  have hl : y.core.de.memReadE = true := by
    rw [Datapath.loadUse, Bool.and_eq_true] at huse
    exact huse.1
  constructor
  · rw [step_core, Datapath.edge_mState_of_readyM rfl hs.mState hr, hvE, hl]
    rfl
  · rw [step_core, Datapath.edge_validE_of_readyM rfl hr, Datapath.validD, ValidCtrl.validD, hst,
      Bool.not_true, Bool.and_false, Bool.false_and]
  · rw [step_core, Datapath.edge_validDReg_of_readyM rfl hr, hp, hs.full hvE hpw, Bool.or_true]
    rfl
  · rw [step_core, Datapath.edge_fd rfl, Datapath.readyD_eq, hst]
    exact hmem

/-- While M waits, so do both loads. -/
theorem loadOnLoad_step (hr : y.core.readyM (y.input false w) = false) :
    (y.step w).core.loadOnLoad = true ∧ (y.step w).readDataMValidReg = true := by
  obtain ⟨hl, hv, -⟩ := Datapath.load_of_not_readyM rfl hs.mState hr
  have hfd : (y.step w).core.fd = y.core.fd := by
    rw [step_core, Datapath.edge_fd rfl, Datapath.readyD_of_not_readyM hr]
    rfl
  have hde : (y.step w).core.de = y.core.de := by
    rw [step_core, Datapath.edge_de rfl, hr, Bool.and_false]
    rfl
  have hE : (y.step w).core.ctl.validE = y.core.ctl.validE := by
    rw [step_core, Datapath.edge_validE_of_not_readyM rfl hr]
  have hpw : (y.step w).core.preWrong = y.core.preWrong := by
    rw [step_core, Datapath.Inv.preWrong_edge_of_not_readyM rfl hr]
  refine ⟨?_, ?_⟩
  · rw [← h]
    simp only [Datapath.loadOnLoad, Datapath.loadUse, hfd, hde, hE, hpw]
  · have hv' : y.readDataMValidReg = false := hv
    rw [step_readDataMValidReg, memReadM_of_load hs hl, hv']
    rfl

end LoadOnLoad

end Npc

/-! ## Runs -/

namespace NpcRun

variable {w : ℕ → BusWords} {y : ℕ → Npc} (hrun : NpcRun w y)
include hrun

/-- A response that comes next cycle is the load's own, unless it comes early. -/
theorem ownResponse_succ (t : ℕ) :
    OwnResponse y (t + 1) ↔ (y t).earlyResponse = false := by
  have hs := hrun.coreRun.inv t
  constructor
  · intro h
    by_contra he
    rw [Bool.not_eq_false] at he
    obtain ⟨hc, hl⟩ := Npc.consumes_step_of_earlyResponse hs (w t) he
    rw [← hrun.step] at hc
    obtain ⟨u, hu, hload, -, -⟩ := h hc
    rw [Nat.succ.inj hu] at hl
    exact hl hload
  · intro he hc
    rw [hrun.step] at hc
    rcases Npc.consumes_step hs (w t) hc with he' | hr
    · rw [he] at he'
      contradiction
    · have hem : (y (t + 1)).core.em = (y t).core.em := by
        rw [hrun.step, Npc.step_core, Datapath.edge_em rfl, hr, Bool.and_false]
        rfl
      refine ⟨t, rfl, (Datapath.load_of_not_readyM rfl hs.mState hr).1, ?_, by rw [hem]⟩
      rw [retired_succ, hrun.step, Npc.step_core, Datapath.idxM_edge_of_not_readyM rfl hs hr]

/-- While no load waits in D for the load in E, the register is in phase. -/
theorem inPhase (h : ∀ t, (y t).core.loadOnLoad = false) (t : ℕ) : (y t).InPhase := by
  induction t with
  | zero => exact hrun.reset.inPhase
  | succ t ih =>
    rw [hrun.step]
    exact ih.step (hrun.coreRun.inv t) (w t) (h t)

/-- A load that waits behind the load in M finds the register raised early. -/
theorem exists_earlyResponse_of_waits {t : ℕ} (h : (y t).Waits) :
    ∃ u, (y u).earlyResponse = true := by
  have step : ∀ u, (y u).Waits → (y u).readDataMValidReg = true →
      ∃ v, (y v).earlyResponse = true := fun u hu hv =>
    ⟨u + 1, by rw [hrun.step]; exact hu.earlyResponse_step (hrun.coreRun.inv u) (w u) hv⟩
  rcases Bool.eq_false_or_eq_true (y t).readDataMValidReg with hv | hv
  · exact step t h hv
  · have hw := h.step (hrun.coreRun.inv t) (w t) hv
    rw [← hrun.step] at hw
    exact step (t + 1) hw.1 hw.2

/-- A load that waits in D for the load in E finds the register raised early. -/
theorem exists_earlyResponse {t : ℕ} (h : (y t).core.loadOnLoad = true) :
    ∃ u, (y u).earlyResponse = true := by
  have hs := hrun.coreRun.inv
  have step : ∀ u, (y u).core.loadOnLoad = true →
      (y u).core.readyM ((y u).input false (w u)) = true → ∃ v, (y v).earlyResponse = true := by
    intro u hu hr
    have hw := Npc.waits_step (hs u) (w u) hu hr
    rw [← hrun.step] at hw
    exact hrun.exists_earlyResponse_of_waits hw
  rcases Bool.eq_false_or_eq_true ((y t).core.readyM ((y t).input false (w t))) with hr | hr
  · exact step t h hr
  · have hn := Npc.loadOnLoad_step (hs t) (w t) h hr
    rw [← hrun.step] at hn
    refine step (t + 1) hn.1 ?_
    -- Once the response has come, M is ready.
    by_contra hr'
    rw [Bool.not_eq_true] at hr'
    have hv := (Datapath.load_of_not_readyM rfl (hs (t + 1)).mState hr').2.1
    rw [show (y (t + 1)).readDataMValidReg = false from hv] at hn
    exact absurd hn.2 (by decide)

end NpcRun

/-- In every run of `npc` and `myCPU`, every load consumes the response to its own request if and
only if no load ever waits in D for the load in E. -/
theorem ownResponse_iff {w : ℕ → BusWords} {y : ℕ → Npc} (hrun : NpcRun w y) :
    (∀ t, OwnResponse y t) ↔ ∀ t, (y t).core.loadOnLoad = false := by
  constructor
  · intro h t
    by_contra hc
    rw [Bool.not_eq_false] at hc
    obtain ⟨u, hu⟩ := hrun.exists_earlyResponse hc
    rw [(hrun.ownResponse_succ u).mp (h (u + 1))] at hu
    contradiction
  · intro h t
    cases t with
    | zero =>
      intro hc
      rw [Npc.consumes, hrun.reset.core.ctl] at hc
      contradiction
    | succ t => exact (hrun.ownResponse_succ t).mpr (hrun.inPhase h t).not_earlyResponse

/-! ## Two programs of loads -/

/-- The words `lui x1, 0x80000`, `lw x2, 0(x1)`, `lw x3, 0(x2)`, and `j 0` at the reset address. -/
def loadChain : Memories :=
  let image := ByteMem.ofWords pcRst [0x800000b7#32, 0x0000a103#32, 0x00012183#32, 0x0000006f#32]
  ⟨true, image, image⟩

/-- The run of the chain of loads. -/
def loadChainRun : ℕ → Npc :=
  Clocked.run (fun m y => y.step (y.words m)) Npc.reset fun _ => loadChain

theorem loadChainRun_run : NpcRun (fun t => (loadChainRun t).words loadChain) loadChainRun :=
  ⟨Npc.afterReset_reset, fun _ => rfl⟩

/-- The second load of the chain consumes a response in its first cycle in M, to the request of the
first. -/
theorem loadChain_not_ownResponse :
    NpcRun (fun t => (loadChainRun t).words loadChain) loadChainRun ∧ ¬ OwnResponse loadChainRun 7 := by
  refine ⟨loadChainRun_run, fun h => ?_⟩
  obtain ⟨u, hu, hl, -, -⟩ := h (by decide +kernel)
  rw [← Nat.succ.inj hu] at hl
  exact absurd hl (by decide +kernel)

/-- The run over the word `lw x1, 0(x0)` at every address. -/
def loadsRun : ℕ → Npc := Clocked.run Npc.step Npc.reset fun _ => ⟨0x00002083#32, 0#32⟩

theorem loadsRun_run : NpcRun (fun _ => ⟨0x00002083#32, 0#32⟩) loadsRun :=
  .of_run Npc.afterReset_reset _

/-- D holds that word, or the one that reset leaves there. -/
theorem loadsRun_instrD (t : ℕ) :
    (loadsRun t).core.fd.instrD = 0#32 ∨ (loadsRun t).core.fd.instrD = 0x00002083#32 := by
  induction t with
  | zero => exact .inl rfl
  | succ t ih =>
    rw [loadsRun_run.step, Npc.step_core, Datapath.edge_fd rfl]
    split_ifs
    · exact .inr rfl
    · exact ih

/-- None of the loads waits for the one before it, and every load consumes its own response. -/
theorem ownResponse_loads :
    (∀ t, (loadsRun t).core.loadOnLoad = false) ∧ ∀ t, OwnResponse loadsRun t := by
  have hno : ∀ t, (loadsRun t).core.loadOnLoad = false := by
    intro t
    rcases loadsRun_instrD t with h | h
    · have hm : (mulcuDecoder 0#32).memRen = false := by decide
      rw [Datapath.loadOnLoad, h, hm, Bool.and_false]
    · -- The register that the load reads is `x0`.
      have hr : (mulcuDecoder 0x00002083#32).rs1 = 0#5 := by decide
      have hn : RawDetect.noRs2 (immeDecoder 0x00002083#32).type = true := by decide
      have hc : ∀ rd ty, RawDetect.conflict 0#5 rd ty = false := by
        intro rd ty
        by_contra hc
        rw [Bool.not_eq_false, Datapath.conflict_iff] at hc
        exact hc.2.1 hc.1.symm
      simp only [Datapath.loadOnLoad, Datapath.loadUse, h, hr, hn, hc, Bool.not_true, Bool.false_and,
        Bool.or_self, Bool.and_false]
  exact ⟨hno, (ownResponse_iff loadsRun_run).mpr hno⟩

end RV32Pipeline
