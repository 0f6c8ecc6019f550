import RV32Pipeline.Pipeline.Operands

/-!
# What holds in every cycle after reset

The invariant `Datapath.Inv` holds after reset and is preserved by every clock edge, with any words
on the buses, any timing of the responses, and any answer of the branch predictor. It says that the
control signals in a stage are those of the instruction word that the stage holds, that the state of
the memory stage agrees with them, and where the front end stands when a stage is empty.
-/

namespace RV32Pipeline

namespace Datapath

/-- The invariant of the core out of reset. -/
structure Inv (s : Datapath) : Prop where
  mState : s.ctl.mState ≠ .unused
  controlE : s.ctl.validE = true → s.de.toControlE = controlD s.instrER
  controlM : s.occM = true → s.em.toControlM = (controlD s.instrMR).toM
  controlW : s.ctl.validW = true → s.mw.toControlW = (controlD s.instrWR).toM.toW
  load : s.occM = true → (s.ctl.mState = .load ↔ s.em.memReadM = true)
  -- W keeps its last instruction while it is empty, and writes it back again in every cycle.
  wbStale : s.ctl.validW = false → (s.mw.regWriteW = true → s.rf s.mw.rdW = s.mw.wdata) ∧
    (s.mw.csrWenW = true → s.csr.write s.mw.csrWaddrW s.mw.csrWdataW = s.csr)
  -- F follows the prediction made for the word in D.
  fetch : s.ctl.validDReg = true → s.fd.predictD = false → s.pcRegF = s.fd.pcRegD + 4#32
  -- Behind an instruction in E that was predicted right, D is not empty.
  full : s.ctl.validE = true → s.preWrong = false → s.ctl.validDReg = true

namespace Inv

variable {s : Datapath} {i : DatapathIn} {l : Lookup}

theorem decoded (h : s.Inv) : s.Decoded where
  e hv := ⟨_, h.controlE hv⟩
  m hv := ⟨_, h.controlM hv⟩
  w hv := ⟨_, h.controlW hv⟩

/-- Behind an instruction in E that does not flush it, D is not empty. -/
theorem validDReg_of_validE (h : s.Inv) (hp : s.preWrongValid = false) (hv : s.ctl.validE = true) :
    s.ctl.validDReg = true :=
  h.full hv (by rwa [preWrongValid, hv, Bool.and_true] at hp)

section OutOfReset

variable (hrst : i.rst = false)
include hrst

/-- What E hands on occupies M. -/
theorem occM_edge_of_readyM (h : s.Inv) (hr : s.readyM i = true) :
    (s.edge i l).occM = s.ctl.validE := by
  simp only [occM, edge_mState_of_readyM hrst h.mState hr]
  cases s.ctl.validE <;> cases s.de.memReadE <;> rfl

/-- M stays occupied while it waits. -/
theorem occM_edge_of_not_readyM (h : s.Inv) (hr : s.readyM i = false) :
    (s.edge i l).occM = true ∧ s.occM = true := by
  simp only [occM, edge_mState_of_not_readyM hrst h.mState hr,
    (load_of_not_readyM hrst h.mState hr).1]
  exact ⟨rfl, rfl⟩

theorem mState_edge (h : s.Inv) : (s.edge i l).ctl.mState ≠ .unused := by
  cases hr : s.readyM i
  · rw [edge_mState_of_not_readyM hrst h.mState hr]
    exact h.mState
  · rw [edge_mState_of_readyM hrst h.mState hr]
    split_ifs <;> simp

theorem controlE_edge (h : s.Inv) (hv : (s.edge i l).ctl.validE = true) :
    (s.edge i l).de.toControlE = controlD (s.edge i l).instrER := by
  rw [edge_de hrst, edge_instrER hrst]
  cases hr : s.readyM i
  · rw [edge_validE_of_not_readyM hrst hr] at hv
    simpa using h.controlE hv
  · rw [edge_validE_of_readyM hrst hr, Bool.and_eq_true] at hv
    rw [hv.1]
    rfl

theorem controlM_edge (h : s.Inv) (ho : (s.edge i l).occM = true) :
    (s.edge i l).em.toControlM = (controlD (s.edge i l).instrMR).toM := by
  rw [edge_em hrst, edge_instrMR hrst]
  cases hr : s.readyM i
  · simpa using h.controlM (occM_edge_of_not_readyM (l := l) hrst h hr).2
  · rw [occM_edge_of_readyM hrst h hr] at ho
    rw [ho]
    simp only [Bool.and_self, if_true, emIn, BufferDE.emIn, h.controlE ho]

theorem controlW_edge (h : s.Inv) (hv : (s.edge i l).ctl.validW = true) :
    (s.edge i l).mw.toControlW = (controlD (s.edge i l).instrWR).toM.toW := by
  rw [edge_validW hrst] at hv
  rw [edge_mw hrst, edge_instrWR hrst, hv]
  simp only [if_true, mwIn, BufferEM.mwIn, h.controlM (occM_of_validM hv)]

/-- The state of M says whether the instruction in it is a load. -/
theorem load_edge (h : s.Inv) (ho : (s.edge i l).occM = true) :
    (s.edge i l).ctl.mState = .load ↔ (s.edge i l).em.memReadM = true := by
  rw [edge_em hrst]
  cases hr : s.readyM i
  · rw [edge_mState_of_not_readyM hrst h.mState hr]
    simpa using h.load (occM_edge_of_not_readyM (l := l) hrst h hr).2
  · rw [occM_edge_of_readyM hrst h hr] at ho
    have hm : s.emIn.memReadM = s.de.memReadE := rfl
    rw [edge_mState_of_readyM hrst h.mState hr, ho]
    simp only [Bool.and_self, if_true, hm]
    cases s.de.memReadE <;> simp

/-- Once W is empty, its last write to each register has taken effect. -/
theorem wbStale_edge (hv : (s.edge i l).ctl.validW = false) :
    ((s.edge i l).mw.regWriteW = true →
        (s.edge i l).rf (s.edge i l).mw.rdW = (s.edge i l).mw.wdata) ∧
      ((s.edge i l).mw.csrWenW = true →
        (s.edge i l).csr.write (s.edge i l).mw.csrWaddrW (s.edge i l).mw.csrWdataW =
          (s.edge i l).csr) := by
  rw [edge_validW hrst] at hv
  have hmw : (s.edge i l).mw = s.mw := by rw [edge_mw hrst, hv]; rfl
  rw [hmw, edge_rf hrst, edge_csr hrst]
  constructor
  · intro hw
    simp [RegisterFile.next, hw]
  · intro hw
    simp [Csr.next, hw, Csr.write_write]

/-- D keeps its word at an edge only if it held one. -/
theorem validDReg_of_not_readyD (hvD : (s.edge i l).ctl.validDReg = true)
    (hready : s.readyD i = false) : s.preWrongValid = false ∧ s.ctl.validDReg = true := by
  rw [readyD_eq, Bool.and_eq_false_iff, Bool.not_eq_false'] at hready
  cases hr : s.readyM i
  · rwa [edge_validDReg_of_not_readyM hrst hr, Bool.and_eq_true, Bool.not_eq_true'] at hvD
  · have hst : s.stallD i = true := by simpa [hr] using hready
    rwa [edge_validDReg_of_readyM hrst hr, hst, Bool.not_true, Bool.false_or, Bool.and_eq_true,
      Bool.not_eq_true'] at hvD

/-- D takes a word at an edge only if the word is not flushed. -/
theorem preWrongValid_of_readyD (hvD : (s.edge i l).ctl.validDReg = true)
    (hready : s.readyD i = true) : s.preWrongValid = false := by
  rw [readyD_eq, Bool.and_eq_true] at hready
  rw [edge_validDReg_of_readyM hrst hready.2, Bool.and_eq_true, Bool.not_eq_true'] at hvD
  exact hvD.1

/-- When M is ready, D becomes empty only by a flush. -/
theorem preWrongValid_of_flush (h : s.Inv) (hr : s.readyM i = true)
    (hvD : (s.edge i l).ctl.validDReg = false) : s.preWrongValid = true := by
  rw [edge_validDReg_of_readyM hrst hr] at hvD
  by_contra hp
  rw [Bool.not_eq_true] at hp
  rw [hp] at hvD
  simp only [Bool.not_false, Bool.true_and, Bool.or_eq_false_iff, Bool.not_eq_false'] at hvD
  -- A stall means an instruction in E, and then D is not empty.
  have hE : s.ctl.validE = true := by
    have hst := hvD.1
    rw [stallD_of_readyM hr, Bool.and_eq_true] at hst
    exact hst.1
  rw [h.validDReg_of_validE hp hE] at hvD
  exact absurd hvD.2 (by decide)

/-- The address in F after the edge, when the word in D is not predicted taken. -/
theorem fetch_edge (h : s.Inv) (hvD : (s.edge i l).ctl.validDReg = true)
    (hpred : (s.edge i l).fd.predictD = false) :
    (s.edge i l).pcRegF = (s.edge i l).fd.pcRegD + 4#32 := by
  rw [edge_pcRegF hrst]
  rw [edge_fd hrst] at hpred ⊢
  cases hready : s.readyD i
  · rw [hready] at hpred
    exact h.fetch (validDReg_of_not_readyD hrst hvD hready).2 hpred
  · rw [hready] at hpred
    have hpred' : predictF i l = false := hpred
    simp [pcSrc, preWrongValid_of_readyD hrst hvD hready, pcPredictPath, hpred', fdIn]

/-- While M waits, the operands of the instruction in E do not change. -/
theorem src_edge_of_not_readyM (hr : s.readyM i = false) :
    (s.edge i l).de = s.de ∧ (s.edge i l).src1E = s.src1E ∧ (s.edge i l).src2 = s.src2 := by
  have hde : (s.edge i l).de = s.de := by rw [edge_de hrst, hr, Bool.and_false]; rfl
  have hfwd : (s.edge i l).fwd = s.fwd := by rw [edge_fwd hrst, hr]; rfl
  exact ⟨hde, by rw [src1E, hde, hfwd]; rfl, by rw [src2, hde, hfwd]; rfl⟩

/-- While M waits, whether the instruction in E was mispredicted does not change. -/
theorem preWrong_edge_of_not_readyM (hr : s.readyM i = false) :
    (s.edge i l).preWrong = s.preWrong := by
  obtain ⟨hde, h1, h2⟩ := src_edge_of_not_readyM (l := l) hrst hr
  rw [preWrong, hde, h1, h2]
  rfl

theorem full_edge (h : s.Inv) (hv : (s.edge i l).ctl.validE = true)
    (hw : (s.edge i l).preWrong = false) : (s.edge i l).ctl.validDReg = true := by
  cases hr : s.readyM i
  · rw [edge_validE_of_not_readyM hrst hr] at hv
    rw [preWrong_edge_of_not_readyM hrst hr] at hw
    rw [edge_validDReg_of_not_readyM hrst hr, preWrongValid, hw, h.full hv hw]
    rfl
  · rw [edge_validE_of_readyM hrst hr, Bool.and_eq_true, validD, ValidCtrl.validD,
      Bool.and_eq_true] at hv
    rw [edge_validDReg_of_readyM hrst hr, hv.2, hv.1.1]
    simp

/-- A clock edge out of reset preserves the invariant. -/
theorem edge (h : s.Inv) : (s.edge i l).Inv where
  mState := h.mState_edge hrst
  controlE := h.controlE_edge hrst
  controlM := h.controlM_edge hrst
  controlW := h.controlW_edge hrst
  load := h.load_edge hrst
  wbStale := wbStale_edge hrst
  fetch := h.fetch_edge hrst
  full := h.full_edge hrst

end OutOfReset

end Inv

namespace AfterReset

variable {s : Datapath} (h : s.AfterReset)
include h

/-- The stage control after reset: every stage is empty. -/
theorem ctl : s.ctl = ⟨false, false, .idle, false⟩ := by
  obtain ⟨p, i, l, hrst, rfl⟩ := h
  simp [edge, ValidCtrl.next, hrst]

theorem pcRegF : s.pcRegF = pcRst := by
  obtain ⟨p, i, l, hrst, rfl⟩ := h
  simp [edge, pcNext, hrst]

theorem em : s.em = BufferEM.reset := by
  obtain ⟨p, i, l, hrst, rfl⟩ := h
  simp [edge, bufferNext, hrst]

theorem mw : s.mw = BufferMW.reset := by
  obtain ⟨p, i, l, hrst, rfl⟩ := h
  simp [edge, bufferNext, hrst]

theorem rf : s.rf = fun _ => 0#32 := by
  obtain ⟨p, i, l, hrst, rfl⟩ := h
  simp [edge, RegisterFile.next, hrst]

theorem csr : s.csr = Csr.init := by
  obtain ⟨p, i, l, hrst, rfl⟩ := h
  simp [edge, Csr.next, hrst]

theorem btb : s.btb = Btb.empty := by
  obtain ⟨p, i, l, hrst, rfl⟩ := h
  simp [edge, Btb.next, hrst]

/-- The invariant holds after reset. -/
theorem inv : s.Inv where
  mState := by simp [h.ctl]
  controlE := by simp [h.ctl, ValidCtrl.validE]
  controlM := by simp [h.ctl, occM]
  controlW := by simp [h.ctl, ValidCtrl.validW]
  load := by simp [h.ctl, occM]
  wbStale := by
    rintro -
    rw [h.mw]
    exact ⟨fun hw => absurd hw (by decide), fun hw => absurd hw (by decide)⟩
  fetch := by simp [h.ctl]
  full := by simp [h.ctl, ValidCtrl.validE]

end AfterReset

end Datapath

end RV32Pipeline
