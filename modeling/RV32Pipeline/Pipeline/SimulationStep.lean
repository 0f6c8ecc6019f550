import RV32Pipeline.Pipeline.Simulation

/-!
# One edge of the simulation

The execute stage and the front end after a clock edge, and from all stages together the step
(`Sim.edge`) and the statement about runs (`run_sim`).
-/

namespace RV32Pipeline

namespace Sim

variable {σ : SeqRun} {c : ℕ} {s : Datapath} {m : Memories} {i : DatapathIn} {l : Lookup}

/-! ## The operands of the instruction that leaves D -/

section Operands

variable (h : Sim σ c s m)
include h

/-- A register after the instruction in W. -/
theorem rf_idxM {r : BitVec 5} (hr : r ≠ 0#5) :
    (σ (s.idxM c)).rf r = if s.writesW r then s.mw.wdata else s.rf r := by
  rcases Bool.eq_false_or_eq_true s.ctl.validW with hv | hv
  · have hw : s.writesW r = (s.mw.regWriteW && s.mw.rdW == r) := by simp [Datapath.writesW, hv]
    rw [hw, Datapath.idxM, hv, Bool.toNat_true, σ.step, (h.wb hv).next_rf r, ← h.rf r hr]
  · have hw : s.writesW r = false := by simp [Datapath.writesW, hv]
    simp [hw, Datapath.idxM, hv, h.rf r hr]

/-- A register after the instruction in M. -/
theorem rf_idxE (hrst : i.rst = false) (hready : s.readyM i = true)
    (hans : Answers σ c s i) (r : BitVec 5) :
    (σ (s.idxE c)).rf r = if s.writesM i r then s.resultM i else (σ (s.idxM c)).rf r := by
  have hv := Datapath.validM_of_readyM hrst h.inv.mState hready
  rcases Bool.eq_false_or_eq_true s.occM with ho | ho
  · have hw : s.writesM i r = (s.em.regWriteM && s.em.rdM == r) := by
      simp [Datapath.writesM, hv, ho]
    rw [hw, Datapath.idxE, ho, Bool.toNat_true, σ.step]
    exact (h.mm ho).next_rf fun _ => h.rdata_of_validM hans (hv.trans ho)
  · have hw : s.writesM i r = false := by simp [Datapath.writesM, hv, ho]
    simp [hw, Datapath.idxE, ho]

/-- A register after the instruction in E, unless that is a load to this register. -/
theorem rf_idxD {r : BitVec 5} (hl : s.writesE r = true → s.de.memReadE = false) :
    (σ (s.idxD c)).rf r = if s.writesE r then s.resultE else (σ (s.idxE c)).rf r := by
  rcases Bool.eq_false_or_eq_true s.ctl.validE with hv | hv
  · have hw : s.writesE r = (s.emIn.regWriteM && s.emIn.rdM == r) := by
      simp [Datapath.writesE, hv, Datapath.emIn, BufferDE.emIn, ControlE.toM]
    rw [hw, Datapath.idxD, hv, Bool.toNat_true, σ.step]
    refine (h.ex hv).emIn.next_rf fun hr hread => ?_
    have hn := hl (hw.trans hr)
    rw [(h.ex hv).control, hread] at hn
    contradiction
  · have hw : s.writesE r = false := by simp [Datapath.writesE, hv]
    simp [hw, Datapath.idxD, hv]

/-- What a register holds once the instructions in flight have written back is what it holds for the
instruction in D. -/
theorem pending_eq (hrst : i.rst = false) (hready : s.readyM i = true)
    (hans : Answers σ c s i) {r : BitVec 5} (hr : r ≠ 0#5)
    (hl : s.writesE r = true → s.de.memReadE = false) :
    s.pending i r = (σ (s.idxD c)).rf r := by
  rw [h.rf_idxD hl, h.rf_idxE hrst hready hans, h.rf_idxM hr]
  rfl

/-- The instruction that leaves D takes the value that its source register has on the sequential
machine. -/
theorem operand_eq (hrst : i.rst = false) (hready : s.readyM i = true)
    (hans : Answers σ c s i) {rs : BitVec 5} (hsafe : s.ForwardSafe i rs)
    (hl : s.selE rs = true → s.de.memReadE = false) :
    s.operand i rs = (σ (s.idxD c)).rf.read true rs := by
  by_cases hrs : rs = 0#5
  · rw [hrs, Datapath.operand_zero]
    simp [RegisterFile.read]
  · rw [Datapath.operand_eq_pending h.inv.decoded Datapath.occM_of_validM hrs hsafe hl,
      h.pending_eq hrst hready hans hrs fun hw =>
        hl (Datapath.selE_of_writesE h.inv.decoded hrs hw)]
    simp [RegisterFile.read, hrs]

/-- The instruction that leaves D reads the value that the CSR has on the sequential machine. -/
theorem csr_read_eq (hsafe : s.CsrSafe) :
    s.csr.read (mulcuDecoder s.fd.instrD).csrRaddr =
      (σ (s.idxD c)).csr.read (mulcuDecoder s.fd.instrD).csrRaddr := by
  have hW : (σ (s.idxM c)).csr.read (mulcuDecoder s.fd.instrD).csrRaddr =
      (σ c).csr.read (mulcuDecoder s.fd.instrD).csrRaddr := by
    rw [Datapath.idxM]
    cases hv : s.ctl.validW
    · rfl
    · rw [Bool.toNat_true, σ.step, (h.wb hv).next_csr_read (hsafe.w hv)]
  have hM : (σ (s.idxE c)).csr.read (mulcuDecoder s.fd.instrD).csrRaddr =
      (σ (s.idxM c)).csr.read (mulcuDecoder s.fd.instrD).csrRaddr := by
    rw [Datapath.idxE]
    cases ho : s.occM
    · rfl
    · rw [Bool.toNat_true, σ.step, (h.mm ho).next_csr_read (hsafe.m ho) _]
  have hE : (σ (s.idxD c)).csr.read (mulcuDecoder s.fd.instrD).csrRaddr =
      (σ (s.idxE c)).csr.read (mulcuDecoder s.fd.instrD).csrRaddr := by
    rw [Datapath.idxD]
    cases hv : s.ctl.validE
    · rfl
    · rw [Bool.toNat_true, σ.step, (h.ex hv).emIn.next_csr_read (fun hc =>
        hsafe.e hv (bne_iff_ne.mpr hc)) _]
  rw [hE, hM, hW, h.csr]

end Operands

/-! ## The execute stage -/

section Execute

variable (hrst : i.rst = false) (h : Sim σ c s m)
include hrst h

omit h in
/-- While M waits, the instruction in E keeps its operands. -/
theorem exMatches_edge_of_not_readyM {a : Arch} (hr : s.readyM i = false) (hx : ExMatches s a) :
    ExMatches (s.edge i l) a := by
  obtain ⟨hde, h1, h2⟩ := Datapath.Inv.src_edge_of_not_readyM (l := l) hrst hr
  constructor
  · rw [hde]; exact hx.control
  · rw [hde]; exact hx.pc
  · rw [h1]; exact hx.src1
  · rw [h2]; exact hx.src2
  · rw [hde]; exact hx.csr

omit hrst in
/-- The instruction that leaves D is the next one of the sequential machine. -/
theorem fd_of_leavesD (hD : s.leavesD i = true) :
    s.fd.pcRegD = (σ (s.idxD c)).pc ∧ s.fd.instrD = (σ (s.idxD c)).instr := by
  simp only [Datapath.leavesD, Datapath.validD, ValidCtrl.validD, Bool.and_eq_true,
    Bool.not_eq_true'] at hD
  exact h.fd hD.1.1.1 hD.2

/-- The instruction that leaves D has the operands of the sequential machine. -/
theorem ex_of_leavesD (hans : Answers σ c s i)
    (hreads : s.ReadsOk i) (hD : s.leavesD i = true) :
    ExMatches (s.edge i l) (σ (s.idxD c)) := by
  obtain ⟨hpc, hinstr⟩ := h.fd_of_leavesD hD
  have hD' := hD
  simp only [Datapath.leavesD, Bool.and_eq_true] at hD'
  obtain ⟨⟨hvD, hr⟩, -⟩ := hD'
  have hde : (s.edge i l).de = s.deIn := by rw [Datapath.edge_de hrst, hvD, hr]; rfl
  -- A load in E would stall D.
  have hload1 := fun hs => Datapath.not_load_of_selE hr hvD (.inl hs)
  constructor
  · rw [hde, ← hinstr]; rfl
  · rw [hde]; exact hpc
  · intro hreads1
    rw [← hinstr] at hreads1
    rw [Datapath.src1E_edge hrst hr hvD, h.operand_eq hrst hr hans (hreads.rs1 hD hreads1) hload1,
      hinstr]
    rfl
  · intro hreads2
    rw [← hinstr] at hreads2
    -- An instruction that reads `rs2` has the format bits that say so.
    have hn := noRs2_of_readsRs2 hreads2
    have hload2 := fun hs => Datapath.not_load_of_selE hr hvD (.inr ⟨hn, hs⟩)
    rw [Datapath.src2_edge hrst hr hvD hn, h.operand_eq hrst hr hans (hreads.rs2 hD hreads2) hload2,
      hinstr]
    rfl
  · intro hcsr
    rw [← hinstr] at hcsr
    have hread := h.csr_read_eq (hreads.csr hD hcsr)
    rw [hinstr] at hread
    simp only [hde, Datapath.deIn, bufferDEIn, Arch.de, hinstr]
    exact hread

/-- The instruction in E after the edge. -/
theorem ex_edge (hans : Answers σ c s i)
    (hreads : s.ReadsOk i) (hv : (s.edge i l).ctl.validE = true) :
    ExMatches (s.edge i l) (σ ((s.edge i l).idxE (s.idxM c))) := by
  cases hr : s.readyM i
  · rw [Datapath.edge_validE_of_not_readyM hrst hr] at hv
    rw [Datapath.idxE_edge_of_not_readyM hrst h.inv hr]
    exact exMatches_edge_of_not_readyM hrst hr (h.ex hv)
  · rw [Datapath.edge_validE_of_readyM hrst hr] at hv
    rw [Datapath.idxE_edge_of_readyM hrst h.inv hr]
    refine h.ex_of_leavesD hrst hans hreads ?_
    rw [Datapath.leavesD, hr, Bool.and_true, hv]

end Execute

/-! ## The front end -/

section FrontEnd

variable (hrst : i.rst = false) (h : Sim σ c s m)
include hrst h

/-- When F moves on, its address is the one of the instruction after those in flight. -/
theorem pcRegF_of_readyD (hex : (s.edge i l).ctl.validE = true →
      ExMatches (s.edge i l) (σ ((s.edge i l).idxE (s.idxM c))))
    (htarget : (s.edge i l).TargetOk) (hready : s.readyD i = true) (hp : s.preWrongValid = false)
    (hp' : (s.edge i l).preWrongValid = false) :
    s.pcRegF = (σ ((s.edge i l).idxD (s.idxM c))).pc := by
  rw [Datapath.readyD_eq, Bool.and_eq_true, Bool.not_eq_true'] at hready
  obtain ⟨hst, hr⟩ := hready
  have hfd : (s.edge i l).fd = s.fdIn i l := by
    rw [Datapath.edge_fd hrst, Datapath.readyD_eq, hst, hr]; rfl
  have hv : (s.edge i l).ctl.validE = s.ctl.validDReg := by
    rw [Datapath.edge_validE_of_readyM hrst hr, hp, Datapath.validD, ValidCtrl.validD, hst]
    simp
  have hidx : (s.edge i l).idxE (s.idxM c) = s.idxD c :=
    Datapath.idxE_edge_of_readyM hrst h.inv hr c
  rw [Datapath.idxD, hv, hidx]
  cases hD : s.ctl.validDReg
  · -- D was empty, and so was E.
    have hE : s.ctl.validE = false := Bool.eq_false_iff.mpr fun hE => by
      rw [h.inv.validDReg_of_validE hp hE] at hD; contradiction
    exact h.restart hD hE
  · -- D moves to E, and F is at what E finds to be the next PC.
    have hx := hex (hv.trans hD)
    rw [hidx] at hx
    have hw : (s.edge i l).preWrong = false := by
      rwa [Datapath.preWrongValid, hv.trans hD, Bool.and_true] at hp'
    have hde : (s.edge i l).de = s.deIn := by
      rw [Datapath.edge_de hrst, Datapath.validD, ValidCtrl.validD, hD, hst, hr]; rfl
    rw [Bool.toNat_true, σ.step, hx.next_pc_of_not_preWrong hw _]
    cases hpred : (s.edge i l).de.predictE
    · -- D was not predicted taken, so F is behind it.
      have hpredD : s.fd.predictD = false := by rw [hde] at hpred; exact hpred
      simp only [Bool.false_eq_true, if_false, hde]
      exact h.inv.fetch hD hpredD
    · have ht := htarget (hv.trans hD) hw hpred
      rw [hfd] at ht
      rw [if_pos rfl]
      exact ht

/-- The instruction in D after the edge. -/
theorem fd_edge (hco : CoherentAt σ (s.idxM c))
    (hex : (s.edge i l).ctl.validE = true →
      ExMatches (s.edge i l) (σ ((s.edge i l).idxE (s.idxM c))))
    (hfetch : s.readyD i = true → i.instAxiRdata = m.fetch s.pcRegF)
    (htarget : (s.edge i l).TargetOk) (hvD : (s.edge i l).ctl.validDReg = true)
    (hp' : (s.edge i l).preWrongValid = false) :
    (s.edge i l).fd.pcRegD = (σ ((s.edge i l).idxD (s.idxM c))).pc ∧
      (s.edge i l).fd.instrD = (σ ((s.edge i l).idxD (s.idxM c))).instr := by
  cases hready : s.readyD i
  · -- D keeps its instruction.
    have hfd : (s.edge i l).fd = s.fd := by rw [Datapath.edge_fd hrst, hready]; rfl
    obtain ⟨hp, hv⟩ := Datapath.Inv.validDReg_of_not_readyD hrst hvD hready
    have hidx : (s.edge i l).idxD (s.idxM c) = s.idxD c := by
      cases hr : s.readyM i
      · exact Datapath.idxD_edge_of_not_readyM hrst h.inv hr c
      · have hst : s.stallD i = true := by simpa [Datapath.readyD_eq, hr] using hready
        rw [Datapath.idxD_edge_of_readyM hrst h.inv hr, Datapath.leavesD, Datapath.validD,
          ValidCtrl.validD, hst]
        simp
    rw [hfd, hidx]
    exact h.fd hv hp
  · have hfd : (s.edge i l).fd = s.fdIn i l := by rw [Datapath.edge_fd hrst, hready]; rfl
    have hr : s.readyM i = true := by
      rw [Datapath.readyD_eq, Bool.and_eq_true] at hready; exact hready.2
    -- D takes the word at the address in F.
    have hp := Datapath.Inv.preWrongValid_of_readyD hrst hvD hready
    have hpc := h.pcRegF_of_readyD hrst hex htarget hready hp hp'
    rw [hfd]
    refine ⟨hpc, ?_⟩
    -- At most three instructions are between the one in M and the one that is fetched.
    obtain ⟨k, hk, hidx⟩ : ∃ k ≤ 3, (s.edge i l).idxD (s.idxM c) = s.idxM c + k := by
      refine ⟨s.occM.toNat + s.ctl.validE.toNat + (s.leavesD i).toNat, ?_, ?_⟩
      · have := Bool.toNat_le s.occM
        have := Bool.toNat_le s.ctl.validE
        have := Bool.toNat_le (s.leavesD i)
        omega
      · rw [Datapath.idxD_edge_of_readyM hrst h.inv hr, Datapath.idxD, Datapath.idxE]
        omega
    have hword := hco k hk
    rw [← hidx, ← h.mem] at hword
    rw [← hword, ← hpc]
    exact hfetch hready

/-- When E and D are empty, F has the address of the next instruction. -/
theorem restart_edge (hredirect : s.RedirectOk i)
    (hvD : (s.edge i l).ctl.validDReg = false) (hvE : (s.edge i l).ctl.validE = false) :
    (s.edge i l).pcRegF = (σ ((s.edge i l).idxD (s.idxM c))).pc := by
  cases hr : s.readyM i
  · rw [Datapath.edge_validE_of_not_readyM hrst hr] at hvE
    have hp := Datapath.preWrongValid_of_not_validE hvE
    rw [Datapath.edge_validDReg_of_not_readyM hrst hr, hp] at hvD
    have hready := Datapath.readyD_of_not_readyM hr
    rw [Datapath.edge_pcRegF hrst, hready, Datapath.idxD_edge_of_not_readyM hrst h.inv hr]
    exact h.restart (by simpa using hvD) hvE
  · have hp := h.inv.preWrongValid_of_flush hrst hr hvD
    have hst := hredirect hp hr
    have hready : s.readyD i = true := by rw [Datapath.readyD_eq, hst, hr]; rfl
    have hE : s.ctl.validE = true := by
      rw [Datapath.preWrongValid, Bool.and_eq_true] at hp; exact hp.2
    rw [Datapath.edge_pcRegF hrst, hready, Datapath.pcSrc, hp,
      Datapath.idxD_edge_of_readyM hrst h.inv hr, Datapath.leavesD, hp, Datapath.idxD, hE]
    simp only [if_true, Bool.not_true, Bool.and_false, Bool.toNat_false, Bool.toNat_true,
      Nat.add_zero]
    rw [σ.step]
    exact (h.ex hE).pcCorrectionPath _

end FrontEnd

/-! ## One edge -/

/-- A clock edge preserves the simulation. -/
theorem edge (h : Sim σ c s m) (hco : CoherentAt σ (s.idxM c)) (hrst : i.rst = false)
    (hfetch : s.readyD i = true → i.instAxiRdata = m.fetch s.pcRegF) (hans : Answers σ c s i)
    (hredirect : s.RedirectOk i) (hreads : s.ReadsOk i) (htarget : (s.edge i l).TargetOk) :
    Sim σ (s.idxM c) (s.edge i l) (m.commit s.em) where
  inv := h.inv.edge hrst
  rf _ hr := h.rf_edge hrst hr
  csr := h.csr_edge hrst
  mem := h.mem_edge hrst
  wb := h.wb_edge hrst hans
  mm := h.mm_edge hrst
  mmStale := h.mmStale_edge hrst
  ex := h.ex_edge hrst hans hreads
  fd := h.fd_edge hrst hco (h.ex_edge hrst hans hreads) hfetch htarget
  restart := h.restart_edge hrst hredirect

/-- After reset the pipeline is empty, and its registers are those of the sequential machine. -/
theorem afterReset (h : s.AfterReset) (hσ : σ 0 = Arch.init m) : Sim σ 0 s m := by
  have hM : s.idxM 0 = 0 := by simp [Datapath.idxM, h.ctl, ValidCtrl.validW]
  have hD : s.idxD 0 = 0 := by
    simp [Datapath.idxD, Datapath.idxE, hM, Datapath.occM, h.ctl, ValidCtrl.validE]
  constructor
  case inv => exact h.inv
  case rf => intro r _; rw [h.rf, hσ]; rfl
  case csr => rw [h.csr, hσ]; rfl
  case mem => rw [hM, hσ]; rfl
  case mmStale => rintro -; rw [h.em]; rfl
  case restart => rintro - -; rw [h.pcRegF, hD, hσ]; rfl
  all_goals simp [h.ctl, Datapath.occM, ValidCtrl.validE, ValidCtrl.validW]

end Sim

/-! ## Runs -/

/-- The conditions on an edge, for every cycle of a run: no redirect is raised while D stalls, a
jump that was predicted taken was predicted to its own target, and what leaves D reads nothing that
is still on its way and not forwarded. -/
structure RunOk (s : ℕ → Datapath) (inp : ℕ → DatapathIn) : Prop where
  redirect : ∀ t, (s t).RedirectOk (inp t)
  target : ∀ t, (s t).TargetOk
  reads : ∀ t, (s t).ReadsOk (inp t)

section Run

variable {inp : ℕ → DatapathIn} {look : ℕ → Lookup} {s : ℕ → Datapath} {m : ℕ → Memories}

/-- A cycle of a run that meets the conditions continues the simulation. -/
theorem Sim.run_succ {t : ℕ} (hsim : Sim (seqRun (m 0)) (retired s t) (s t) (m t))
    (hrun : MemRun inp look s m) (hco : Coherent (seq (m 0))) (hredirect : (s t).RedirectOk (inp t))
    (hreads : (s t).ReadsOk (inp t)) (htarget : (s (t + 1)).TargetOk) :
    Sim (seqRun (m 0)) (retired s (t + 1)) (s (t + 1)) (m (t + 1)) := by
  rw [hrun.edge] at htarget
  rw [retired_succ, hrun.edge, hrun.commit]
  exact hsim.edge (hco _) (hrun.rst t) (hrun.fetch t) (hsim.answers (hrun.load t)) hredirect hreads
    htarget

/-- Along a run that meets the conditions the pipeline simulates the sequential machine. -/
theorem run_sim (hrun : MemRun inp look s m) (hco : Coherent (seq (m 0))) (hok : RunOk s inp)
    (t : ℕ) : Sim (seqRun (m 0)) (retired s t) (s t) (m t) := by
  induction t with
  | zero => exact Sim.afterReset hrun.reset rfl
  | succ t ih => exact ih.run_succ hrun hco (hok.redirect t) (hok.reads t) (hok.target (t + 1))

end Run

end RV32Pipeline
