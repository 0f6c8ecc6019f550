import RV32Pipeline.Pipeline.Edge
import RV32Pipeline.Pipeline.Decode

/-!
# The operands of the instruction that leaves D

`pending s i r` is the value that register `r` holds once the instructions in E, M, and W have
written back: the youngest of the three that writes `r` decides it. An instruction that leaves D
receives exactly this value for each of its source registers (`src1E_edge`, `src2_edge`), provided
that what `RAWdetect_forward` selects is sound (`ForwardSafe`): the selected instruction writes its
register, and a `csrrw` or `csrrs` is selected only in W. `RAWdetect_forward` infers the first from
the format bits, and it knows nothing of the second.
-/

namespace RV32Pipeline

namespace Datapath

variable (s : Datapath) (i : DatapathIn)

/-! ## What is selected, and what is right -/

/-- The comparison of a source register in D with the destination in E succeeds. -/
def selE (rs : BitVec 5) : Bool := s.ctl.validE && RawDetect.conflict rs s.de.rdE s.de.typeE

/-- The comparison of a source register in D with the destination in M succeeds. -/
def selM (rs : BitVec 5) : Bool := s.validM i && RawDetect.conflict rs s.em.rdM s.em.typeM

/-- The comparison of a source register in D with the destination in W succeeds. -/
def selW (rs : BitVec 5) : Bool := s.ctl.validW && RawDetect.conflict rs s.mw.rdW s.mw.typeW

/-- The instruction in E writes register `r`. -/
def writesE (r : BitVec 5) : Bool := s.ctl.validE && s.de.regWriteE && s.de.rdE == r

/-- The instruction in M writes register `r`. -/
def writesM (r : BitVec 5) : Bool := s.validM i && s.em.regWriteM && s.em.rdM == r

/-- The instruction in W writes register `r`. -/
def writesW (r : BitVec 5) : Bool := s.ctl.validW && s.mw.regWriteW && s.mw.rdW == r

/-- The value that the instruction in E, which is not a load, writes back when it comes to W. -/
def resultE : Word := (s.emIn.mwIn 0#32).wdata

/-- The value that the instruction in M, which has finished, writes back when it comes to W. -/
def resultM : Word := (s.mwIn i).wdata

/-- The value of register `r` once the instructions in E, M, and W have written back. -/
def pending (r : BitVec 5) : Word :=
  if s.writesE r then s.resultE
  else if s.writesM i r then s.resultM i
  else if s.writesW r then s.mw.wdata
  else s.rf r

/-- What is selected to be forwarded for `rs` really writes it, and a `csrrw` or `csrrs` is selected
only in W. -/
structure ForwardSafe (rs : BitVec 5) : Prop where
  e : s.selE rs = true → s.de.regWriteE = true ∧ s.de.isCsr = false
  m : s.selE rs = false → s.selM i rs = true → s.em.regWriteM = true ∧ s.em.csrCtrlM = 0#2
  w : s.selE rs = false → s.selM i rs = false → s.selW rs = true → s.mw.regWriteW = true

instance (rs : BitVec 5) : Decidable (s.ForwardSafe i rs) :=
  decidable_of_iff
    ((s.selE rs = true → s.de.regWriteE = true ∧ s.de.isCsr = false) ∧
      (s.selE rs = false → s.selM i rs = true → s.em.regWriteM = true ∧ s.em.csrCtrlM = 0#2) ∧
      (s.selE rs = false → s.selM i rs = false → s.selW rs = true → s.mw.regWriteW = true))
    ⟨fun ⟨e, m, w⟩ => ⟨e, m, w⟩, fun ⟨e, m, w⟩ => ⟨e, m, w⟩⟩

/-- The control signals in the stages that hold an instruction are those of an instruction word. -/
structure Decoded : Prop where
  e : s.ctl.validE = true → ∃ w, s.de.toControlE = controlD w
  m : s.occM = true → ∃ w, s.em.toControlM = (controlD w).toM
  w : s.ctl.validW = true → ∃ w, s.mw.toControlW = (controlD w).toM.toW

variable {s i} {l : Lookup} {rs r : BitVec 5}

/-! ## Writers are selected -/

theorem conflict_iff {rs rd : BitVec 5} {t : InstrType} :
    RawDetect.conflict rs rd t = true ↔ rs = rd ∧ rd ≠ 0#5 ∧ RawDetect.noRd t = false := by
  simp [RawDetect.conflict, and_assoc]

/-- An instruction in E that writes `r` is selected for `r`. -/
theorem selE_of_writesE (hd : s.Decoded) (hr : r ≠ 0#5) (h : s.writesE r = true) :
    s.selE r = true := by
  simp only [writesE, Bool.and_eq_true, beq_iff_eq] at h
  obtain ⟨⟨hv, hw⟩, rfl⟩ := h
  obtain ⟨w, hc⟩ := hd.e hv
  rw [selE, hv, Bool.true_and, conflict_iff]
  exact ⟨rfl, hr, by rw [hc] at hw ⊢; exact noRd_of_regWriteE hw⟩

/-- An instruction in M that writes `r` is selected for `r`. -/
theorem selM_of_writesM (hd : s.Decoded) (ho : s.validM i = true → s.occM = true) (hr : r ≠ 0#5)
    (h : s.writesM i r = true) : s.selM i r = true := by
  simp only [writesM, Bool.and_eq_true, beq_iff_eq] at h
  obtain ⟨⟨hv, hw⟩, rfl⟩ := h
  obtain ⟨w, hc⟩ := hd.m (ho hv)
  rw [selM, hv, Bool.true_and, conflict_iff]
  exact ⟨rfl, hr, by rw [hc] at hw ⊢; exact noRd_of_regWriteE hw⟩

/-- An instruction in W that writes `r` is selected for `r`. -/
theorem selW_of_writesW (hd : s.Decoded) (hr : r ≠ 0#5) (h : s.writesW r = true) :
    s.selW r = true := by
  simp only [writesW, Bool.and_eq_true, beq_iff_eq] at h
  obtain ⟨⟨hv, hw⟩, rfl⟩ := h
  obtain ⟨w, hc⟩ := hd.w hv
  rw [selW, hv, Bool.true_and, conflict_iff]
  exact ⟨rfl, hr, by rw [hc] at hw ⊢; exact noRd_of_regWriteE hw⟩

/-! ## Selected values are results -/

/-- What M forwards for the instruction in it is what that instruction writes back, unless it is a
`csrrw` or `csrrs`. -/
theorem wdataM_eq_resultM (hd : s.Decoded) (ho : s.occM = true) (hc : s.em.csrCtrlM = 0#2) :
    (s.rawDetect i).wdataM = s.resultM i := by
  obtain ⟨w, hw⟩ := hd.m ho
  have hl : s.em.memReadM = true ↔ s.em.resultSrcM = 0b01#2 := by
    rw [hw]
    exact ⟨fun h => (load_of_memReadE h).2, memReadE_of_resultSrcE⟩
  have hcw : (s.em.toControlM.toW.csrCtrlW != 0#2) = false := by
    have : s.em.toControlM.toW.csrCtrlW = s.em.csrCtrlM := rfl
    rw [this, hc]; rfl
  have hrs : s.em.toControlM.toW.resultSrcW = s.em.resultSrcM := rfl
  simp only [RawDetect.wdataM, rawDetect, resultM, mwIn, BufferEM.mwIn, BufferMW.wdata,
    BufferMW.wdataRaw, BufferMW.csrWenW, hcw, hrs, hl, rdataM]
  rfl

/-- What an instruction that is not a load writes back does not depend on the memory. -/
theorem wdata_mwIn_of_not_load {b : BufferEM} {x y : Word} (h : b.resultSrcM ≠ 0b01#2) :
    (b.mwIn x).wdata = (b.mwIn y).wdata := by
  have hs : b.toControlM.toW.resultSrcW ≠ 0b01#2 := h
  simp [BufferEM.mwIn, BufferMW.wdata, BufferMW.wdataRaw, BufferMW.csrWenW, hs]

/-- What E forwards for the instruction in it is what that instruction writes back, unless it is a
load, a `csrrw`, or a `csrrs`. -/
theorem aluResultE_eq_resultE (hd : s.Decoded) (hv : s.ctl.validE = true)
    (hl : s.de.memReadE = false) (hc : s.de.isCsr = false) : s.aluResultE = s.resultE := by
  obtain ⟨w, hw⟩ := hd.e hv
  have hcw : (s.de.toControlE.toM.toW.csrCtrlW != 0#2) = false := hc
  have hrs : s.de.toControlE.toM.toW.resultSrcW ≠ 0b01#2 := fun h => by
    have : s.de.memReadE = true := by rw [hw] at h ⊢; exact memReadE_of_resultSrcE h
    rw [hl] at this
    contradiction
  simp [resultE, emIn, BufferDE.emIn, BufferEM.mwIn, BufferMW.wdata, BufferMW.wdataRaw,
    BufferMW.csrWenW, hcw, hrs, aluResultE]

/-! ## The value that the reader receives -/

/-- A value is forwarded for a source register. -/
def selected (s : Datapath) (i : DatapathIn) (rs : BitVec 5) : Bool :=
  s.selE rs || s.selM i rs || s.selW rs

/-- The value forwarded for a source register, from the youngest selected instruction. -/
def forwarded (s : Datapath) (i : DatapathIn) (rs : BitVec 5) : Word :=
  if s.selE rs then s.aluResultE
  else if s.selM i rs then (s.rawDetect i).wdataM
  else if s.selW rs then s.mw.wdata else 0#32

/-- What the reader of `rs` takes: the value forwarded to it, or what it read from the register file
in D. -/
def operand (s : Datapath) (i : DatapathIn) (rs : BitVec 5) : Word :=
  if s.selected i rs then s.forwarded i rs else s.rf.read true rs

/-- Register 0 is never selected. -/
theorem ne_zero_of_selected (h : s.selected i rs = true) : rs ≠ 0#5 := by
  simp only [selected, selE, selM, selW, Bool.or_eq_true, Bool.and_eq_true, conflict_iff] at h
  rcases h with (⟨-, rfl, hne, -⟩ | ⟨-, rfl, hne, -⟩) | ⟨-, rfl, hne, -⟩ <;> exact hne

/-- Register 0 reads as 0. -/
theorem operand_zero : s.operand i 0#5 = 0#32 := by
  have hn : s.selected i 0#5 = false := Bool.eq_false_iff.mpr fun h => ne_zero_of_selected h rfl
  simp [operand, hn, RegisterFile.read]

/-- A sound selection gives the reader the value that the register will hold. -/
theorem operand_eq_pending (hd : s.Decoded) (ho : s.validM i = true → s.occM = true)
    (hrs : rs ≠ 0#5) (hsafe : s.ForwardSafe i rs)
    (hload : s.selE rs = true → s.de.memReadE = false) : s.operand i rs = s.pending i rs := by
  have hread : s.rf.read true rs = s.rf rs := by simp [RegisterFile.read, hrs]
  simp only [operand, selected, forwarded, pending, hread]
  cases hE : s.selE rs
  · have hwE : s.writesE rs = false := Bool.eq_false_iff.mpr fun h => by
      rw [selE_of_writesE hd hrs h] at hE; contradiction
    cases hMs : s.selM i rs
    · have hwM : s.writesM i rs = false := Bool.eq_false_iff.mpr fun h => by
        rw [selM_of_writesM hd ho hrs h] at hMs; contradiction
      cases hW : s.selW rs
      · -- Nothing is selected, and nothing in flight writes the register.
        have hwW : s.writesW rs = false := Bool.eq_false_iff.mpr fun h => by
          rw [selW_of_writesW hd hrs h] at hW; contradiction
        simp [hwE, hwM, hwW]
      · have hw := hsafe.w hE hMs hW
        simp only [selW, Bool.and_eq_true, conflict_iff] at hW
        have hwW : s.writesW rs = true := by simp [writesW, hW, hw]
        simp [hwE, hwM, hwW]
    · obtain ⟨hw, hc⟩ := hsafe.m hE hMs
      simp only [selM, Bool.and_eq_true, conflict_iff] at hMs
      have hwM : s.writesM i rs = true := by simp [writesM, hMs, hw]
      simp [hwE, hwM, wdataM_eq_resultM hd (ho hMs.1) hc]
  · obtain ⟨hw, hc⟩ := hsafe.e hE
    -- What is selected in E is no load, so its result is the ALU's.
    have hl := hload hE
    simp only [selE, Bool.and_eq_true, conflict_iff] at hE
    have hwE : s.writesE rs = true := by simp [writesE, hE, hw]
    simp [hwE, aluResultE_eq_resultE hd hE.1 hl hc]

section Leaves

variable (hrst : i.rst = false) (hr : s.readyM i = true) (hD : s.validD i = true)
include hr hD

/-- A load in E is not selected for a source register of an instruction that leaves D. -/
theorem not_load_of_selE (h : s.selE (mulcuDecoder s.fd.instrD).rs1 = true ∨
    RawDetect.noRs2 (immeDecoder s.fd.instrD).type = false ∧
      s.selE (mulcuDecoder s.fd.instrD).rs2 = true) : s.de.memReadE = false := by
  have hst : s.stallD i = false := by
    simp only [validD, ValidCtrl.validD, Bool.and_eq_true, Bool.not_eq_true'] at hD
    exact hD.2
  rw [stallD_of_readyM hr] at hst
  simp only [selE, loadUse, Bool.and_eq_true, Bool.and_eq_false_iff, Bool.or_eq_false_iff] at h hst
  rcases h with ⟨hv, hc⟩ | ⟨hn, hv, hc⟩
  · simpa [hv, hc] using hst
  · simpa [hv, hc, hn] using hst

include hrst

/-- What is forwarded to the instruction that leaves D for its first source register. -/
theorem forwardRs1_edge :
    (s.edge i l).fwd.validForwardRs1 = s.selected i (mulcuDecoder s.fd.instrD).rs1 ∧
      (s.edge i l).fwd.forwardRs1 = s.forwarded i (mulcuDecoder s.fd.instrD).rs1 := by
  have hrE : s.ctl.readyE i.rst i.dataAxiRvalid = true := hr
  have hE : (s.rawDetect i).fcRs1E = s.selE (mulcuDecoder s.fd.instrD).rs1 := by
    have hl := fun h => not_load_of_selE hr hD (.inl h)
    simp only [RawDetect.fcRs1E, RawDetect.idleE, rawDetect, hrE, RawDetect.conflictRs1E]
    rw [Bool.and_true, Bool.not_not]
    change (s.selE _ && _) = _
    cases hs : s.selE (mulcuDecoder s.fd.instrD).rs1
    · rfl
    · simp [hl hs]
  have hMs : (s.rawDetect i).fcRs1M = s.selM i (mulcuDecoder s.fd.instrD).rs1 := by
    simp only [RawDetect.fcRs1M, RawDetect.idleM, rawDetect, hr, selM, RawDetect.conflictRs1M]
    cases s.validM i <;> simp
  have hW : (s.rawDetect i).fcRs1W = s.selW (mulcuDecoder s.fd.instrD).rs1 := by
    simp [RawDetect.fcRs1W, RawDetect.idleW, rawDetect, selW, RawDetect.conflictRs1W, hrst,
      ValidCtrl.readyW]
  simp only [edge_fwd hrst, hr, if_true, ForwardRegs.validForwardRs1, ForwardRegs.forwardRs1,
    RawDetect.comb, hE, hMs, hW]
  exact ⟨rfl, rfl⟩

/-- What is forwarded to an instruction that leaves D for its second source register, if its format
has one. -/
theorem forwardRs2_edge (hn : RawDetect.noRs2 (immeDecoder s.fd.instrD).type = false) :
    (s.edge i l).fwd.validForwardRs2 = s.selected i (mulcuDecoder s.fd.instrD).rs2 ∧
      (s.edge i l).fwd.forwardRs2 = s.forwarded i (mulcuDecoder s.fd.instrD).rs2 := by
  have hrE : s.ctl.readyE i.rst i.dataAxiRvalid = true := hr
  have hE : (s.rawDetect i).fcRs2E = s.selE (mulcuDecoder s.fd.instrD).rs2 := by
    have hl := fun h => not_load_of_selE hr hD (.inr ⟨hn, h⟩)
    simp only [RawDetect.fcRs2E, RawDetect.idleE, rawDetect, hrE, RawDetect.conflictRs2E, hn]
    rw [Bool.and_true, Bool.not_not, Bool.not_false, Bool.true_and]
    change (s.selE _ && _) = _
    cases hs : s.selE (mulcuDecoder s.fd.instrD).rs2
    · rfl
    · simp [hl hs]
  have hMs : (s.rawDetect i).fcRs2M = s.selM i (mulcuDecoder s.fd.instrD).rs2 := by
    simp only [RawDetect.fcRs2M, RawDetect.idleM, rawDetect, hr, selM, RawDetect.conflictRs2M, hn]
    cases s.validM i <;> simp
  have hW : (s.rawDetect i).fcRs2W = s.selW (mulcuDecoder s.fd.instrD).rs2 := by
    simp [RawDetect.fcRs2W, RawDetect.idleW, rawDetect, selW, RawDetect.conflictRs2W, hrst,
      ValidCtrl.readyW, hn]
  simp only [edge_fwd hrst, hr, if_true, ForwardRegs.validForwardRs2, ForwardRegs.forwardRs2,
    RawDetect.comb, hE, hMs, hW]
  exact ⟨rfl, rfl⟩

/-- The first operand of the instruction that leaves D. -/
theorem src1E_edge : (s.edge i l).src1E = s.operand i (mulcuDecoder s.fd.instrD).rs1 := by
  obtain ⟨hv, hf⟩ := forwardRs1_edge (l := l) hrst hr hD
  simp only [src1E, hv, hf, edge_de hrst, hr, hD, Bool.and_true, if_true, operand]
  rfl

/-- The second operand of an instruction that leaves D, if its format has one. -/
theorem src2_edge (hn : RawDetect.noRs2 (immeDecoder s.fd.instrD).type = false) :
    (s.edge i l).src2 = s.operand i (mulcuDecoder s.fd.instrD).rs2 := by
  obtain ⟨hv, hf⟩ := forwardRs2_edge (l := l) hrst hr hD hn
  simp only [src2, hv, hf, edge_de hrst, hr, hD, Bool.and_true, if_true, operand]
  rfl

end Leaves

end Datapath

end RV32Pipeline
