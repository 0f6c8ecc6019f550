import RV32Pipeline.Rtl.Datapath

/-!
# What a clock edge does to each register

Out of reset an edge is of one of two kinds. When `ready_M` is 0, the memory stage waits for a
response: E and M keep their instructions, and only the write-back drains. When it is 1, the
instructions in E and M move on together, and D follows unless it stalls on a load in E.
-/

namespace RV32Pipeline

namespace Datapath

variable {s : Datapath} {i : DatapathIn} {l : Lookup}

/-- A source register of the word in D is the destination of the load in E. -/
def loadUse (s : Datapath) : Bool :=
  let t := (immeDecoder s.fd.instrD).type
  s.de.memReadE &&
    (RawDetect.conflict (mulcuDecoder s.fd.instrD).rs1 s.de.rdE s.de.typeE ||
      (!RawDetect.noRs2 t && RawDetect.conflict (mulcuDecoder s.fd.instrD).rs2 s.de.rdE s.de.typeE))

/-- An instruction is in M. -/
def occM (s : Datapath) : Bool := s.ctl.mState != .idle

/-- An instruction that has finished in M is in M. -/
theorem occM_of_validM (h : s.validM i = true) : s.occM = true := by
  simp only [validM, ValidCtrl.validM, occM] at *
  cases hm : s.ctl.mState <;> simp_all

/-- M is ready when it is empty. -/
theorem readyM_of_not_occM (h : s.occM = false) : s.readyM i = true := by
  simp only [readyM, ValidCtrl.readyM, occM] at *
  cases hm : s.ctl.mState <;> simp_all

/-- When M is ready, only a load in E can stall D. -/
theorem stallD_of_readyM (h : s.readyM i = true) :
    s.stallD i = (s.ctl.validE && s.loadUse) := by
  have hrE : s.ctl.readyE i.rst i.dataAxiRvalid = true := h
  simp [stallD, RawDetect.stallD, RawDetect.idleE, RawDetect.idleM, rawDetect, loadUse, h, hrE,
    RawDetect.conflictRs1E, RawDetect.conflictRs2E, Bool.and_assoc]

/-- With E empty there is no such load. -/
theorem stallD_of_not_validE (h : s.readyM i = true) (hE : s.ctl.validE = false) :
    s.stallD i = false := by
  rw [stallD_of_readyM h, hE]
  rfl

/-- With E empty there is no wrong prediction. -/
theorem preWrongValid_of_not_validE (hE : s.ctl.validE = false) : s.preWrongValid = false := by
  rw [preWrongValid, hE, Bool.and_false]

/-- D passes its word on only when M is ready. -/
theorem readyD_eq : s.readyD i = (!s.stallD i && s.readyM i) := by
  simp [readyD, ValidCtrl.readyD, ValidCtrl.readyE, readyM]

theorem readyD_of_not_readyM (h : s.readyM i = false) : s.readyD i = false := by
  rw [readyD_eq, h, Bool.and_false]

section OutOfReset

variable (hrst : i.rst = false)
include hrst

/-- M is ready when the instruction in it has finished. -/
theorem readyM_of_validM (h : s.validM i = true) : s.readyM i = true := by
  have hv : s.ctl.validM i.dataAxiRvalid = true := h
  simp [readyM, ValidCtrl.readyM, ValidCtrl.readyW, hrst, hv]

/-- When M is ready, an instruction in it has finished. -/
theorem validM_of_readyM (hs : s.ctl.mState ≠ .unused) (h : s.readyM i = true) :
    s.validM i = s.occM := by
  simp only [readyM, ValidCtrl.readyM, ValidCtrl.readyW, validM, ValidCtrl.validM, occM, hrst] at *
  cases hm : s.ctl.mState <;> simp_all

/-- When M is not ready, it waits in `M_LOAD` for a response that has not come. -/
theorem load_of_not_readyM (hs : s.ctl.mState ≠ .unused) (h : s.readyM i = false) :
    s.ctl.mState = .load ∧ i.dataAxiRvalid = false ∧ s.validM i = false := by
  simp only [readyM, ValidCtrl.readyM, ValidCtrl.readyW, validM, ValidCtrl.validM, hrst] at *
  cases hm : s.ctl.mState <;> simp_all

/-! ## The stage control after the edge -/

theorem edge_validDReg_of_readyM (h : s.readyM i = true) :
    (s.edge i l).ctl.validDReg = (!s.preWrongValid && (!s.stallD i || s.ctl.validDReg)) := by
  have hrE : s.ctl.readyE false i.dataAxiRvalid = true := hrst ▸ h
  simp only [edge, ValidCtrl.next, hrst, ValidCtrl.readyD, hrE, ValidCtrl.validF, preWrongValid]
  cases s.preWrong <;> cases s.ctl.validE <;> cases s.stallD i <;> cases s.ctl.validDReg <;> rfl

theorem edge_validDReg_of_not_readyM (h : s.readyM i = false) :
    (s.edge i l).ctl.validDReg = (!s.preWrongValid && s.ctl.validDReg) := by
  have hrE : s.ctl.readyE false i.dataAxiRvalid = false := by
    simpa only [readyM, ValidCtrl.readyE, hrst] using h
  simp only [edge, ValidCtrl.next, hrst, ValidCtrl.readyD, hrE, ValidCtrl.validF, preWrongValid]
  cases s.preWrong <;> cases s.ctl.validE <;> cases s.stallD i <;> cases s.ctl.validDReg <;> rfl

theorem edge_validE_of_readyM (h : s.readyM i = true) :
    (s.edge i l).ctl.validE = (s.validD i && !s.preWrongValid) := by
  have hrM : s.ctl.readyM false i.dataAxiRvalid = true := hrst ▸ h
  have hrE : s.ctl.readyE false i.dataAxiRvalid = true := hrM
  simp only [edge, ValidCtrl.validE, ValidCtrl.next, hrst, hrM, hrE, preWrongValid, validD]
  cases s.preWrong <;> cases s.ctl.validEReg <;> simp

theorem edge_validE_of_not_readyM (h : s.readyM i = false) :
    (s.edge i l).ctl.validE = s.ctl.validE := by
  have hrM : s.ctl.readyM false i.dataAxiRvalid = false := by
    simpa only [readyM, hrst] using h
  have hrE : s.ctl.readyE false i.dataAxiRvalid = false := hrM
  simp [edge, ValidCtrl.validE, ValidCtrl.next, hrst, hrM, hrE]

theorem edge_mState_of_readyM (hs : s.ctl.mState ≠ .unused) (h : s.readyM i = true) :
    (s.edge i l).ctl.mState =
      if s.ctl.validE then (if s.de.memReadE then .load else .ready) else .idle := by
  have hv := validM_of_readyM hrst hs h
  simp only [validM, ValidCtrl.validM, occM] at hv
  simp only [edge, ValidCtrl.next, hrst, ValidCtrl.mStateNext, ValidCtrl.mStateTake, ValidCtrl.readyW]
  cases hm : s.ctl.mState with
  | idle => simp
  | load =>
    -- M is ready in `M_LOAD` only through a response.
    have hr : i.dataAxiRvalid = true := by rw [hm] at hv; exact hv
    simp [hr]
  | ready => simp
  | unused => exact absurd hm hs

theorem edge_mState_of_not_readyM (hs : s.ctl.mState ≠ .unused) (h : s.readyM i = false) :
    (s.edge i l).ctl.mState = s.ctl.mState := by
  obtain ⟨hm, hr, -⟩ := load_of_not_readyM hrst hs h
  simp [edge, ValidCtrl.next, hrst, ValidCtrl.mStateNext, hm, hr]

theorem edge_validW : (s.edge i l).ctl.validW = s.validM i := by
  simp [edge, ValidCtrl.validW, ValidCtrl.next, hrst, ValidCtrl.readyW, validM]

/-! ## The data registers after the edge -/

theorem edge_pcRegF :
    (s.edge i l).pcRegF = if s.readyD i then s.pcSrc i l else s.pcRegF := by
  simp [edge, pcNext, hrst]

theorem edge_fd : (s.edge i l).fd = if s.readyD i then s.fdIn i l else s.fd := by
  simp [edge, bufferNext, hrst, ValidCtrl.validF]

theorem edge_de : (s.edge i l).de = if s.validD i && s.readyM i then s.deIn else s.de := by
  simp [edge, bufferNext, hrst]

theorem edge_em : (s.edge i l).em = if s.ctl.validE && s.readyM i then s.emIn else s.em := by
  simp [edge, bufferNext, hrst]

theorem edge_mw : (s.edge i l).mw = if s.validM i then s.mwIn i else s.mw := by
  simp [edge, bufferNext, hrst, ValidCtrl.readyW]

theorem edge_fwd : (s.edge i l).fwd = if s.readyM i then (s.rawDetect i).comb else s.fwd := by
  simp [edge, RawDetect.next, hrst, rawDetect, readyM, ValidCtrl.readyE]

theorem edge_rf : (s.edge i l).rf = s.rf.next false s.mw.regWriteW s.mw.rdW s.mw.wdata := by
  simp [edge, hrst]

theorem edge_csr :
    (s.edge i l).csr = s.csr.next false s.mw.csrWenW s.mw.csrWaddrW s.mw.csrWdataW := by
  simp [edge, hrst]

theorem edge_btb :
    (s.edge i l).btb = if s.btbUpdate i then s.btb.update s.fd.pcRegD s.btbUpdateTarget else s.btb := by
  simp [edge, Btb.next, hrst]

theorem edge_instrER :
    (s.edge i l).instrER = if s.validD i && s.readyM i then s.fd.instrD else s.instrER := by
  simp [edge, bufferNext, hrst]

theorem edge_instrMR :
    (s.edge i l).instrMR = if s.ctl.validE && s.readyM i then s.instrER else s.instrMR := by
  simp [edge, bufferNext, hrst]

theorem edge_instrWR :
    (s.edge i l).instrWR = if s.validM i then s.instrMR else s.instrWR := by
  simp [edge, bufferNext, hrst, ValidCtrl.readyW]

end OutOfReset

end Datapath

end RV32Pipeline
