import RV32Pipeline.Pipeline.Response

/-!
# The loop of `exec_once` ends

`exec_once` steps the clock until `valid_W` is 1. A bound on the cycles that are left falls in every
cycle that does not reach it: D never stalls while E is empty, and M waits for one cycle at most,
since its own read keeps `ReadData_M_valid_reg` going.
-/

namespace RV32Pipeline

namespace Npc

/-- A bound on the cycles until an instruction writes back, from the stage control and
`ReadData_M_valid_reg`. -/
def cyclesLeft (y : Npc) : ℕ :=
  match y.core.ctl.mState with
  | .ready => 1
  | .load => if y.readDataMValidReg then 1 else 2
  | _ => if y.core.ctl.validEReg then 3 else if y.core.ctl.validDReg then 4 else 5

/-- The loop `do single_cycle(); while (validW == 0)` of `exec_once` from cycle `t` on, for at most
`fuel` cycles: the state in which it ends. -/
def execOnce (w : ℕ → BusWords) : ℕ → ℕ → Npc → Option Npc
  | 0, _, _ => none
  | fuel + 1, t, y =>
    let y' := y.step (w t)
    if y'.validW then some y' else execOnce w fuel (t + 1) y'

section Step

variable {y : Npc} (hs : y.core.Inv) (w : BusWords)

/-- What has finished in M writes back in the next cycle. -/
theorem validW_step : (y.step w).validW = y.core.validM (y.input false w) :=
  Datapath.edge_validW rfl

include hs

/-- While M waits, the register is raised for it. -/
theorem cyclesLeft_step_of_not_readyM (hr : y.core.readyM (y.input false w) = false) :
    (y.step w).cyclesLeft < y.cyclesLeft := by
  obtain ⟨hl, hv, -⟩ := Datapath.load_of_not_readyM rfl hs.mState hr
  have hv0 : y.readDataMValidReg = false := hv
  have hl' : (y.step w).core.ctl.mState = .load := by
    rw [step_core, Datapath.edge_mState_of_not_readyM rfl hs.mState hr, hl]
  have hv' : (y.step w).readDataMValidReg = true := by
    rw [step_readDataMValidReg, memReadM_of_load hs hl, hv0]
    rfl
  simp [cyclesLeft, hl, hl', hv0, hv']

/-- While M is empty, the next instruction comes closer to it. -/
theorem cyclesLeft_step_of_not_occM (ho : y.core.occM = false) :
    (y.step w).cyclesLeft < y.cyclesLeft := by
  have hm : y.core.ctl.mState = .idle := by simpa [Datapath.occM] using ho
  have hr := Datapath.readyM_of_not_occM (i := y.input false w) ho
  have hm' :=
    Datapath.edge_mState_of_readyM (i := y.input false w) (l := y.core.lookup) rfl hs.mState hr
  rw [← step_core] at hm'
  cases hvE : y.core.ctl.validE
  · have hst := Datapath.stallD_of_not_validE hr hvE
    have hp := Datapath.preWrongValid_of_not_validE hvE
    have hE := Datapath.edge_validE_of_readyM (i := y.input false w) (l := y.core.lookup) rfl hr
    have hD := Datapath.edge_validDReg_of_readyM (i := y.input false w) (l := y.core.lookup) rfl hr
    rw [← step_core, Datapath.validD, ValidCtrl.validD, hst, hp] at hE
    rw [← step_core, hst, hp] at hD
    rw [hvE] at hm'
    simp only [ValidCtrl.validE] at hE hvE
    cases hvD : y.core.ctl.validDReg <;> simp [cyclesLeft, hm, hm', hvE, hE, hD, hvD]
  · rw [hvE] at hm'
    simp only [ValidCtrl.validE] at hvE
    cases hl : y.core.de.memReadE
    · simp [cyclesLeft, hm, hm', hvE, hl]
    · cases hv : (y.step w).readDataMValidReg <;> simp [cyclesLeft, hm, hm', hvE, hl, hv]

/-- The bound falls in every cycle after which no instruction writes back. -/
theorem cyclesLeft_step (h : (y.step w).validW = false) : (y.step w).cyclesLeft < y.cyclesLeft := by
  cases hr : y.core.readyM (y.input false w)
  · exact cyclesLeft_step_of_not_readyM hs w hr
  · refine cyclesLeft_step_of_not_occM hs w ?_
    rw [← Datapath.validM_of_readyM rfl hs.mState hr, ← validW_step, h]

end Step

end Npc

variable {w : ℕ → BusWords} {y : ℕ → Npc}

/-- The loop ends at the first cycle in which an instruction writes back. -/
theorem NpcRun.execOnce_eq (hrun : NpcRun w y) {k t : ℕ} (hk : (y (t + k + 1)).validW = true)
    (hmin : ∀ j < k, (y (t + j + 1)).validW = false) :
    Npc.execOnce w (k + 1) t (y t) = some (y (t + k + 1)) := by
  induction k generalizing t with
  | zero =>
    have hk' : ((y t).step (w t)).validW = true := by rw [← hrun.step]; exact hk
    simp only [Npc.execOnce, hk', if_true]
    rw [Nat.add_zero, hrun.step]
  | succ k ih =>
    have h0 : ((y t).step (w t)).validW = false := by
      rw [← hrun.step]
      exact hmin 0 k.succ_pos
    rw [Npc.execOnce]
    simp only [h0, Bool.false_eq_true, if_false]
    have hidx : ∀ j, t + 1 + j + 1 = t + (j + 1) + 1 := fun j => by omega
    rw [← hidx] at hk ⊢
    rw [← hrun.step]
    refine ih hk fun j hj => ?_
    rw [hidx]
    exact hmin (j + 1) (by omega)

/-- For any words on the read channels, in every run of `npc` from reset: `cyclesLeft` falls in
every cycle after which `valid_W` is 0, and so the loop of `exec_once` ends from every state of the
run, in the first cycle with `valid_W` = 1, after six cycles at most. -/
theorem execOnce_terminates (hrun : NpcRun w y) :
    (∀ t, (y (t + 1)).validW = false → (y (t + 1)).cyclesLeft < (y t).cyclesLeft) ∧
      ∀ t, ∃ k ≤ 5, (y (t + k + 1)).validW = true ∧
        Npc.execOnce w (k + 1) t (y t) = some (y (t + k + 1)) := by
  have hfall : ∀ t, (y (t + 1)).validW = false → (y (t + 1)).cyclesLeft < (y t).cyclesLeft := by
    intro t h
    rw [hrun.step] at h ⊢
    exact Npc.cyclesLeft_step (hrun.coreRun.inv t) (w t) h
  refine ⟨hfall, fun t => ?_⟩
  have hex : ∃ k, (y (t + k + 1)).validW = true ∧ k ≤ (y t).cyclesLeft := by
    have hstep : ∀ t, (y (t + 1)).validW = true ∨ (y (t + 1)).cyclesLeft < (y t).cyclesLeft :=
      fun t => (Bool.eq_false_or_eq_true _).imp_right (hfall t)
    obtain ⟨k, hk, hv⟩ := Clocked.exists_goal_of_measure (g := (Npc.validW · = true)) hstep t
    exact ⟨k, hv, hk⟩
  -- The loop stops in the first such cycle, and not before.
  have hmin : ∀ j < Nat.find hex, (y (t + j + 1)).validW = false := by
    intro j hj
    have := Nat.find_min hex hj
    have hle := (Nat.find_spec hex).2
    by_contra hv
    exact this ⟨by simpa using hv, by omega⟩
  have hbound : (y t).cyclesLeft ≤ 5 := by
    unfold Npc.cyclesLeft
    split <;> (try split_ifs) <;> omega
  obtain ⟨hv, hle⟩ := Nat.find_spec hex
  exact ⟨_, by omega, hv, hrun.execOnce_eq hv hmin⟩

/-- The loop over the program of loads ends. -/
theorem execOnce_loads : ∃ k ≤ 5, (loadsRun (0 + k + 1)).validW = true ∧
    Npc.execOnce (fun _ => ⟨0x00002083#32, 0#32⟩) (k + 1) 0 (loadsRun 0) =
      some (loadsRun (0 + k + 1)) :=
  (execOnce_terminates loadsRun_run).2 0

end RV32Pipeline
