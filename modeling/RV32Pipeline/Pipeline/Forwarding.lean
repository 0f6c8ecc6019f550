import RV32Pipeline.Pipeline.Correctness

/-!
# Forwarded values

When an instruction leaves D, `RAWdetect_forward` selects for each of its source registers the
youngest instruction in E, M, or W whose destination field names the register, and takes the result
from where it stands at that moment. `ForwardsFrom` says that this is coherent: the instruction that
is followed really writes the register, and the value is the one that it puts there at write-back,
up to two cycles later. It holds of a reader if the selection is sound (`Datapath.ForwardSafe`). The
result of a `csrrw` or `csrrs` does not exist in E and M in the form in which it is forwarded.
-/

namespace RV32Pipeline

namespace Datapath

variable (s : Datapath) (i : DatapathIn)

/-- The number of the youngest instruction in E, M, or W that writes register `r`, when `c`
instructions have written back. -/
def youngestWriter (c : ℕ) (r : BitVec 5) : Option ℕ :=
  if s.writesE r then some (s.idxE c)
  else if s.writesM i r then some (s.idxM c)
  else if s.writesW r then some c
  else none

end Datapath

/-- What is forwarded for register `r` is what instruction `writer` puts there at write-back, and
nothing is forwarded if there is no such instruction. -/
structure ForwardsFrom (s : ℕ → Datapath) (r : BitVec 5) (writer : Option ℕ) (valid : Bool)
    (value : Word) : Prop where
  none : writer = none → valid = false
  some : ∀ k ∈ writer, valid = true → ∀ v, (s v).ctl.validW = true → retired s v = k →
    (s v).mw.regWriteW = true ∧ (s v).mw.rdW = r ∧ value = (s v).mw.wdata

/-- The reader in E at cycle `u` left D at cycle `t`, and what is forwarded to it comes from the
youngest instruction that was then in E, M, or W and writes the register. -/
structure ForwardCoherent (inp : ℕ → DatapathIn) (s : ℕ → Datapath) (t u : ℕ) : Prop where
  lt : t < u
  leaves : (s t).leavesD (inp t) = true
  waits : ∀ v, t < v → v < u → (s v).readyM (inp v) = false
  rs1 : (s u).de.readsRs1 = true → ForwardsFrom s (s u).de.rs1E
    ((s t).youngestWriter (inp t) (retired s t) (s u).de.rs1E)
    (s u).fwd.validForwardRs1 (s u).fwd.forwardRs1
  rs2 : (s u).de.readsRs2 = true → ForwardsFrom s (s u).de.rs2E
    ((s t).youngestWriter (inp t) (retired s t) (s u).de.rs2E)
    (s u).fwd.validForwardRs2 (s u).fwd.forwardRs2

namespace CoreRun

variable {inp : ℕ → DatapathIn} {look : ℕ → Lookup} {s : ℕ → Datapath} (h : CoreRun inp look s)
include h

/-! ## The way of a producer to W -/

/-- An instruction in E that is not a load writes back two cycles after it moves on. -/
theorem writeBack_of_validE {t : ℕ} (hr : (s t).readyM (inp t) = true)
    (hv : (s t).ctl.validE = true) (hl : (s t).de.memReadE = false) :
    (s (t + 2)).ctl.validW = true ∧ retired s (t + 2) = (s t).idxE (retired s t) ∧
      ∃ rdata, (s (t + 2)).mw = (s t).emIn.mwIn rdata := by
  have hem : (s (t + 1)).em = (s t).emIn := by
    rw [h.edge, Datapath.edge_em (h.rst t), hv, hr]
    rfl
  have hM : (s (t + 1)).validM (inp (t + 1)) = true := by
    have hstate : (s (t + 1)).ctl.mState = .ready := by
      rw [h.edge, Datapath.edge_mState_of_readyM (h.rst t) (h.inv t).mState hr, hv, hl]
      rfl
    simp [Datapath.validM, ValidCtrl.validM, hstate]
  have hedge := h.edge (t + 1)
  refine ⟨?_, ?_, (inp (t + 1)).dataAxiRdata, ?_⟩
  · rw [hedge, Datapath.edge_validW (h.rst _), hM]
  · rw [retired_succ, retired_succ, h.edge]
    exact Datapath.idxM_edge_of_readyM (h.rst t) (h.inv t) hr _
  · rw [hedge, Datapath.edge_mw (h.rst _), hM, ← hem]
    rfl

/-- An instruction that has finished in M writes back in the next cycle. -/
theorem writeBack_of_validM {t : ℕ} (hM : (s t).validM (inp t) = true) :
    (s (t + 1)).ctl.validW = true ∧ retired s (t + 1) = (s t).idxM (retired s t) ∧
      (s (t + 1)).mw = (s t).mwIn (inp t) := by
  refine ⟨?_, retired_succ s t, ?_⟩
  · rw [h.edge, Datapath.edge_validW (h.rst t), hM]
  · rw [h.edge, Datapath.edge_mw (h.rst t), hM]
    rfl

/-! ## Forwarding at the edge at which the reader leaves D -/

omit h in
/-- A sound selection selects writers only. -/
theorem selected_of_youngestWriter {a : Datapath} {i : DatapathIn} {c : ℕ} {r : BitVec 5}
    (hsafe : a.ForwardSafe i r) (hn : a.youngestWriter i c r = none) : a.selected i r = false := by
  simp only [Datapath.youngestWriter] at hn
  split_ifs at hn with hE hM hW
  have hsE : a.selE r = false := Bool.eq_false_iff.mpr fun hs => hE (by
    have hw := (hsafe.e hs).1
    simp only [Datapath.selE, Bool.and_eq_true, Datapath.conflict_iff] at hs
    simp [Datapath.writesE, hs, hw])
  have hsM : a.selM i r = false := Bool.eq_false_iff.mpr fun hs => hM (by
    have hw := (hsafe.m hsE hs).1
    simp only [Datapath.selM, Bool.and_eq_true, Datapath.conflict_iff] at hs
    simp [Datapath.writesM, hs, hw])
  have hsW : a.selW r = false := Bool.eq_false_iff.mpr fun hs => hW (by
    have hw := hsafe.w hsE hsM hs
    simp only [Datapath.selW, Bool.and_eq_true, Datapath.conflict_iff] at hs
    simp [Datapath.writesW, hs, hw])
  simp [Datapath.selected, hsE, hsM, hsW]

/-- A sound selection forwards what the youngest writer puts in the register file. -/
theorem forwardsFrom {t : ℕ} {r : BitVec 5} (hr : (s t).readyM (inp t) = true)
    (hsafe : (s t).ForwardSafe (inp t) r)
    (hload : (s t).selE r = true → (s t).de.memReadE = false) :
    ForwardsFrom s r ((s t).youngestWriter (inp t) (retired s t) r) ((s t).selected (inp t) r)
      ((s t).forwarded (inp t) r) where
  none hn := selected_of_youngestWriter hsafe hn
  some := by
    intro k hk hsel v hv hvk
    have hd := (h.inv t).decoded
    have hocc : (s t).validM (inp t) = true → (s t).occM = true := Datapath.occM_of_validM
    have hne : r ≠ 0#5 := Datapath.ne_zero_of_selected hsel
    -- The value that is forwarded is the one that the register holds once the older ones are done.
    have hop : (s t).forwarded (inp t) r = (s t).pending (inp t) r := by
      rw [← Datapath.operand_eq_pending hd hocc hne hsafe hload, Datapath.operand, hsel, if_pos rfl]
    rw [hop, Datapath.pending]
    simp only [Datapath.youngestWriter] at hk
    split_ifs at hk ⊢ with hE hM hW
    · -- The producer is in E: it is not a load, and comes to W two cycles later.
      have hl := hload (Datapath.selE_of_writesE hd hne hE)
      simp only [Datapath.writesE, Bool.and_eq_true, beq_iff_eq] at hE
      obtain ⟨hvW, hret, rdata, hmw⟩ := h.writeBack_of_validE hr hE.1.1 hl
      have hvt : v = t + 2 := eq_of_retired_eq hv hvW (by
        rw [hvk, hret]
        exact (Option.some.inj hk).symm)
      rw [hvt, hmw]
      refine ⟨hE.1.2, hE.2, Datapath.wdata_mwIn_of_not_load fun hsrc => ?_⟩
      obtain ⟨w, hc⟩ := hd.e hE.1.1
      have hread : (s t).de.memReadE = true := by
        change (s t).de.resultSrcE = _ at hsrc
        rw [hc] at hsrc ⊢
        exact memReadE_of_resultSrcE hsrc
      rw [hl] at hread
      contradiction
    · -- The producer is in M, and comes to W in the next cycle.
      simp only [Datapath.writesM, Bool.and_eq_true, beq_iff_eq] at hM
      obtain ⟨hvW, hret, hmw⟩ := h.writeBack_of_validM hM.1.1
      have hvt : v = t + 1 := eq_of_retired_eq hv hvW (by
        rw [hvk, hret]
        exact (Option.some.inj hk).symm)
      rw [hvt, hmw]
      exact ⟨hM.1.2, hM.2, rfl⟩
    · -- The producer is in W.
      simp only [Datapath.writesW, Bool.and_eq_true, beq_iff_eq] at hW
      have hvt : v = t := eq_of_retired_eq hv hW.1.1 (by
        rw [hvk]
        exact (Option.some.inj hk).symm)
      rw [hvt]
      exact ⟨hW.1.2, hW.2, rfl⟩
    · contradiction

/-! ## Forwarding to an instruction in E -/

/-- An instruction in E left D some cycles ago, and has waited in E since. -/
theorem exists_leavesD (u : ℕ) (hv : (s u).ctl.validE = true) :
    ∃ t < u, (s t).leavesD (inp t) = true ∧
      (∀ v, t < v → v < u → (s v).readyM (inp v) = false) ∧
      (s u).de = (s t).deIn ∧ (s u).fwd = (s (t + 1)).fwd := by
  induction u with
  | zero =>
    rw [h.reset.ctl] at hv
    contradiction
  | succ u ih =>
    have hrst := h.rst u
    rw [h.edge] at hv
    cases hr : (s u).readyM (inp u)
    · -- E keeps the instruction.
      rw [Datapath.edge_validE_of_not_readyM hrst hr] at hv
      obtain ⟨t, hlt, hleave, hwait, hde, hfwd⟩ := ih hv
      refine ⟨t, by omega, hleave, fun v htv hvu => ?_, ?_, ?_⟩
      · rcases Nat.lt_succ_iff_lt_or_eq.mp hvu with hlt' | rfl
        · exact hwait v htv hlt'
        · exact hr
      · rw [h.edge, Datapath.edge_de hrst, hr, Bool.and_false, ← hde]
        rfl
      · rw [h.edge u, Datapath.edge_fwd hrst, hr, ← hfwd]
        rfl
    · -- The instruction comes from D at this edge.
      rw [Datapath.edge_validE_of_readyM hrst hr] at hv
      have hleave : (s u).leavesD (inp u) = true := by rw [Datapath.leavesD, hr, Bool.and_true, hv]
      refine ⟨u, by omega, hleave, fun v _ _ => by omega, ?_, rfl⟩
      rw [Bool.and_eq_true] at hv
      rw [h.edge, Datapath.edge_de hrst, hv.1, hr]
      rfl

end CoreRun

/-- Along every run in which what is selected at each edge writes its register, and is not a `csrrw`
or `csrrs` in E or M, forwarding is coherent for every instruction in E, with any words on the
buses and any stalls and flushes. -/
theorem forward_coherent {inp : ℕ → DatapathIn} {look : ℕ → Lookup} {s : ℕ → Datapath}
    (h : CoreRun inp look s) (hok : ∀ t, (s t).ForwardOk (inp t)) (u : ℕ)
    (hv : (s u).ctl.validE = true) : ∃ t, ForwardCoherent inp s t u := by
  obtain ⟨t, hlt, hleave, hwait, hde, hfwd⟩ := h.exists_leavesD u hv
  have hvD : (s t).validD (inp t) = true ∧ (s t).readyM (inp t) = true := by
    simp only [Datapath.leavesD, Bool.and_eq_true] at hleave
    exact hleave.1
  refine ⟨t, hlt, hleave, hwait, fun hr => ?_, fun hr => ?_⟩
  · obtain ⟨hsel, hval⟩ := Datapath.forwardRs1_edge (l := look t) (h.rst t) hvD.2 hvD.1
    rw [← h.edge, ← hfwd] at hsel hval
    rw [hde] at hr ⊢
    rw [hsel, hval]
    exact h.forwardsFrom hvD.2 ((hok t).rs1 hleave hr) fun hs =>
      Datapath.not_load_of_selE hvD.2 hvD.1 (.inl hs)
  · rw [hde] at hr ⊢
    have hn := noRs2_of_readsRs2 hr
    obtain ⟨hsel, hval⟩ := Datapath.forwardRs2_edge (l := look t) (h.rst t) hvD.2 hvD.1 hn
    rw [← h.edge, ← hfwd] at hsel hval
    rw [hsel, hval]
    exact h.forwardsFrom hvD.2 ((hok t).rs2 hleave hr) fun hs =>
      Datapath.not_load_of_selE hvD.2 hvD.1 (.inr ⟨hn, hs⟩)

/-- An instruction that enters E has left D in the cycle before. -/
theorem ForwardCoherent.eq_of_readyM {inp : ℕ → DatapathIn} {s : ℕ → Datapath} {t u : ℕ}
    (h : ForwardCoherent inp s t (u + 1)) (hr : (s u).readyM (inp u) = true) : t = u := by
  by_contra hne
  have hw := h.waits u (by have := h.lt; omega) (Nat.lt_succ_self u)
  rw [hr] at hw
  contradiction

/-! ## A load and its use -/

/-- The words `lui x1, 0x80000`, `lw x2, 0(x1)`, `addi x3, x2, 1`, and `j 0` at the reset
address. -/
def loadUse : Memories :=
  let image := ByteMem.ofWords pcRst [0x800000b7#32, 0x0000a103#32, 0x00110193#32, 0x6f#32]
  ⟨true, image, image⟩

theorem loadUse_hazardFree : HazardFree (seq loadUse) := by
  have hj : (seqRun loadUse 3).instr = 0x6f#32 := by decide +kernel
  apply HazardFree.of_j0 hj <;> decide +kernel

/-- The run of the program with every response in its first cycle. -/
def loadUseRun : ℕ → System :=
  Clocked.run System.step ⟨Datapath.reset, loadUse⟩ fun _ => ⟨true, 0#32, 0#32⟩

/-- The `lw`, which has left D with the `lui` in E, is given what the `lui` puts into `x1`, and the
`addi`, which has left D with the `lw` in M, what the `lw` puts into `x2`. -/
theorem forward_coherent_loadUse :
    ((loadUseRun 3).core.fwd.validForwardRs1 = true ∧
        (loadUseRun 3).core.fwd.forwardRs1 = (loadUseRun 4).core.mw.wdata) ∧
      (loadUseRun 5).core.fwd.validForwardRs1 = true ∧
        (loadUseRun 5).core.fwd.forwardRs1 = (loadUseRun 5).core.mw.wdata := by
  have hrun := System.memRun_step ⟨Datapath.reset, loadUse⟩ (fun _ => ⟨true, 0#32, 0#32⟩)
    Datapath.afterReset_reset
  have hok := loadUse_hazardFree.runOk hrun fun _ _ => rfl
  have h := forward_coherent hrun.toCoreRun fun t => (hok.reads t).toForwardOk
  refine ⟨⟨by decide +kernel, ?_⟩, by decide +kernel, ?_⟩
  · obtain ⟨t, ht⟩ := h 3 (by decide +kernel)
    obtain rfl := ht.eq_of_readyM (by decide +kernel)
    exact ((ht.rs1 (by decide +kernel)).some 0 (by decide +kernel) (by decide +kernel) 4
      (by decide +kernel) (by decide +kernel)).2.2
  · obtain ⟨t, ht⟩ := h 5 (by decide +kernel)
    obtain rfl := ht.eq_of_readyM (by decide +kernel)
    exact ((ht.rs1 (by decide +kernel)).some 1 (by decide +kernel) (by decide +kernel) 5
      (by decide +kernel) (by decide +kernel)).2.2

/-! ## The result of a `csrrs` forwarded from E -/

/-- The words `csrrs x1, mstatus, x0` and `addi x3, x1, 0`, and then `nop`, one in each cycle. -/
def csrForward : ℕ → DatapathIn
  | 0 => ⟨false, 0x300020f3#32, 0#32, true⟩
  | 1 => ⟨false, 0x00008193#32, 0#32, true⟩
  | _ => ⟨false, 0x13#32, 0#32, true⟩

/-- The `addi` receives the output of the ALU, which is 0, in place of the value of `mstatus`. -/
theorem csrForward_not_coherent :
    ¬ ∀ u, (Clocked.run Datapath.step Datapath.reset csrForward u).ctl.validE = true →
      ∃ t, ForwardCoherent csrForward (Clocked.run Datapath.step Datapath.reset csrForward) t u := by
  intro h
  obtain ⟨t, hc⟩ := h 3 (by decide +kernel)
  obtain rfl := hc.eq_of_readyM (by decide +kernel)
  have hf := (hc.rs1 (by decide +kernel)).some 0 (by decide +kernel) (by decide +kernel) 4
    (by decide +kernel) (by decide +kernel)
  revert hf
  decide +kernel

end RV32Pipeline
