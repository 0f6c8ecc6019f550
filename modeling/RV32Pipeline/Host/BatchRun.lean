import RV32Pipeline.Host.ExitStatus
import RV32Pipeline.Host.HostProgram
import RV32Pipeline.Host.RegCompare
import RV32Pipeline.Pipeline.Progress

/-!
# A program from its image to the exit status

The simulator in batch mode, on a program that comes to an `ebreak`: `exec_once` steps the top
module to the next write-back, and what happens to the variable `state` on the way is what
`execute`, `cpu_exec`, and `main` see. The edge behind the `ebreak` in W calls `stop`, in the call of
`exec_once` for the instruction behind it, so one more instruction is executed and compared.
-/

namespace RV32Pipeline

/-! ## The calls of `exec_once` -/

namespace NpcHost

variable (y : ℕ → NpcHost)

/-- What happens to `state` in the call `t` of `single_cycle`: at the edge an ending instruction in
W calls `ebreak`, and then the circuit is evaluated with the new registers. -/
def cycleEvents (t : ℕ) : List Event :=
  (if (y t).npc.core.mw.ebreakW then [.ebreak ((y t).npc.core.cgetReg 10)] else []) ++
    if (y (t + 1)).abortsNow then [.outOfBound] else []

/-- The loop of `exec_once` from cycle `t` on, for at most `fuel` cycles: the cycle in which it
ends, and what happens in it. -/
def execOnce : ℕ → ℕ → ℕ × List Event
  | 0, t => (t, [])
  | fuel + 1, t =>
    let es := cycleEvents y t
    if (y (t + 1)).npc.validW then (t + 1, es)
    else
      let r := execOnce fuel (t + 1)
      (r.1, es ++ r.2)

/-- The cycle in which call `k` of `exec_once` begins. Six cycles are enough for a call. -/
def callStart : ℕ → ℕ
  | 0 => 0
  | k + 1 => (execOnce y 6 (callStart k)).1

/-- The calls of `exec_once` in a run, with what `difftest_step` finds after each, and without
watchpoints. -/
def program (mismatch : ℕ → Bool) : Program where
  call k := ⟨(execOnce y 6 (callStart y k)).2, mismatch k⟩
  checkWp _ := false

variable {y}

/-- The loop ends in the first cycle with `valid_W`. -/
theorem execOnce_eq {k fuel t : ℕ} (hf : k < fuel) (hk : (y (t + k + 1)).npc.validW = true)
    (hmin : ∀ j < k, (y (t + j + 1)).npc.validW = false) :
    execOnce y fuel t =
      (t + k + 1, (List.range (k + 1)).flatMap fun j => cycleEvents y (t + j)) := by
  induction k generalizing fuel t with
  | zero =>
    obtain ⟨fuel, rfl⟩ := Nat.exists_eq_succ_of_ne_zero (Nat.ne_of_gt hf)
    rw [execOnce, if_pos hk]
    simp
  | succ k ih =>
    obtain ⟨fuel, rfl⟩ := Nat.exists_eq_succ_of_ne_zero (Nat.ne_of_gt (Nat.zero_lt_of_lt hf))
    have h0 : (y (t + 1)).npc.validW = false := hmin 0 k.succ_pos
    have hidx : ∀ j, t + 1 + j + 1 = t + (j + 1) + 1 := fun j => by omega
    rw [execOnce, if_neg (by rw [h0]; decide), @ih fuel (t + 1) (by omega)
      (by rw [hidx]; exact hk) fun j hj => by rw [hidx]; exact hmin (j + 1) (by omega)]
    rw [List.range_succ_eq_map (n := k + 1), List.flatMap_cons, List.flatMap_map]
    simp only [Nat.add_zero, Nat.succ_eq_add_one, Nat.add_assoc, Nat.add_comm 1]

end NpcHost

namespace HostRun

variable {inp : ℕ → NpcIn} {y : ℕ → NpcHost} (hrun : HostRun inp y)
include hrun

/-- The events of a cycle are what happens to the variable `state`, as it is after the circuit has
been evaluated. -/
theorem cycleEvents_state (t : ℕ) (s : Simulator)
    (hs : s.state = ((y t).eval (inp t) (y t).host).2.state) :
    ((NpcHost.cycleEvents y t).foldl Simulator.event s).state =
      ((y (t + 1)).eval (inp (t + 1)) (y (t + 1)).host).2.state := by
  have h2 := ((y t).step_effect (inp t)).2.1
  rw [← hrun.step t, ← ((y t).eval_effect (inp t) (y t).host).2.1, ← hs] at h2
  rw [((y (t + 1)).eval_effect (inp (t + 1)) (y (t + 1)).host).2.1, NpcHost.cycleEvents, h2]
  cases (y t).npc.core.mw.ebreakW
  · cases (y (t + 1)).abortsNow <;> rfl
  · cases (y (t + 1)).abortsNow <;> rfl

/-- A call of `exec_once` covers the cycles up to the next write-back. -/
theorem execOnce_spec {t k : ℕ} (ht : retired (fun u => (y u).npc.core) (t + 1) = k) :
    ∃ j, NpcHost.execOnce y 6 t =
        (t + j + 1, (List.range (j + 1)).flatMap fun i => NpcHost.cycleEvents y (t + i)) ∧
      (∀ i ≤ j, retired (fun u => (y u).npc.core) (t + i + 1) = k) ∧
      retired (fun u => (y u).npc.core) (t + j + 1 + 1) = k + 1 := by
  have hex : ∃ j, (y (t + j + 1)).npc.validW = true := by
    obtain ⟨j, -, hv, -⟩ := (execOnce_terminates hrun.npcRun).2 t
    exact ⟨j, hv⟩
  have hle : Nat.find hex ≤ 5 := by
    obtain ⟨j, hj, hv, -⟩ := (execOnce_terminates hrun.npcRun).2 t
    exact (Nat.find_min' hex hv).trans hj
  have hmin : ∀ j < Nat.find hex, (y (t + j + 1)).npc.validW = false := fun j hj =>
    Bool.eq_false_iff.mpr (Nat.find_min hex hj)
  have hcount : ∀ i ≤ Nat.find hex, retired (fun u => (y u).npc.core) (t + i + 1) = k := by
    intro i hi
    induction i with
    | zero => exact ht
    | succ i ih =>
      have hv := hmin i hi
      rw [retired_succ, Datapath.idxM]
      change retired (fun u => (y u).npc.core) (t + i + 1) + (y (t + i + 1)).npc.validW.toNat = k
      rw [hv, ih (Nat.le_of_succ_le hi)]
      rfl
  refine ⟨Nat.find hex, NpcHost.execOnce_eq (Nat.lt_succ_of_le hle) (Nat.find_spec hex) hmin,
    hcount, ?_⟩
  have hv := Nat.find_spec hex
  rw [retired_succ, Datapath.idxM, hcount _ le_rfl]
  change k + (y (t + Nat.find hex + 1)).npc.validW.toNat = k + 1
  rw [hv]
  rfl

/-- At the start of call `k`, instruction `k - 1` is in W. -/
theorem retired_callStart (k : ℕ) :
    retired (fun u => (y u).npc.core) (NpcHost.callStart y k + 1) = k := by
  induction k with
  | zero =>
    rw [NpcHost.callStart, retired_succ, Datapath.idxM]
    change 0 + (y 0).npc.core.ctl.validW.toNat = 0
    rw [hrun.reset.core.ctl]
    rfl
  | succ k ih =>
    obtain ⟨j, hj, -, hnext⟩ := hrun.execOnce_spec ih
    rw [NpcHost.callStart, hj]
    exact hnext

/-! ## The program on the simulator -/

end HostRun

/-- An instruction that ends the program writes no register. -/
theorem Arch.rf_next_of_ending {a : Arch} (he : (controlD a.instr).ebreakE = true) (rdata : Word)
    {r : BitVec 5} (hr : r ≠ 0#5) : (a.nextWith rdata).rf r = a.rf r := by
  have hrd : (controlD a.instr).rdE = 0#5 := by
    rcases eq_of_ebreakE he with hw | hw <;> rw [hw] <;> decide
  have hrd' : (a.mwWith rdata).rdW = (controlD a.instr).rdE := rfl
  change a.rf.next false (a.mwWith rdata).regWriteW (a.mwWith rdata).rdW (a.mwWith rdata).wdata r = _
  rw [RegisterFile.next_apply, hrd', hrd]
  simp [Ne.symm hr]

namespace HostRun

variable {inp : ℕ → NpcIn} {y : ℕ → NpcHost} (hrun : HostRun inp y)
  (h : HostProgram (hostProgram inp y))
  (hfailed : (y 0).host.failed = false)
include hrun h hfailed

/-- A register, while an instruction is in W or has just left it. -/
theorem cgetReg_eq {t n : ℕ} (hend : (controlD (hostProgram inp y n).instr).ebreakE = true)
    (ht : retired (fun u => (y u).npc.core) (t + 1) = n + 1) :
    (y t).npc.core.cgetReg 10 = (hostProgram inp y n).rf.read true 10#5 := by
  obtain ⟨m, hsim, -⟩ := (hrun.hostExec h hfailed t).sim
  change (y t).npc.core.rf 10#5 = (hostProgram inp y n).rf 10#5
  rw [hsim.rf _ (by decide)]
  rw [retired_succ, Datapath.idxM] at ht
  cases hv : (y t).npc.core.ctl.validW
  · -- The instruction has left W.
    rw [hv] at ht
    rw [show retired (fun u => (y u).npc.core) t = n + 1 from ht, (hostProgram inp y).step,
      Arch.rf_next_of_ending hend _ (by decide)]
  · rw [hv] at ht
    rw [Nat.add_right_cancel (show retired (fun u => (y u).npc.core) t + 1 = n + 1 from ht)]

/-- What happens in a cycle of a program that comes to its end with instruction `n`. -/
theorem cycleEvents_eq {t n : ℕ} (hexec : Executed (hostProgram inp y) n)
    (hend : (controlD (hostProgram inp y n).instr).ebreakE = true)
    (ht : retired (fun u => (y u).npc.core) (t + 1) ≤ n + 1) :
    NpcHost.cycleEvents y t =
      if retired (fun u => (y u).npc.core) (t + 1) = n + 1 then
        [.ebreak ((hostProgram inp y n).rf.read true 10#5)]
      else [] := by
  have hends := (hrun.hostExec h hfailed t).ends
  have hsucc : (y t).npc.core.idxM (retired (fun u => (y u).npc.core) t) =
      retired (fun u => (y u).npc.core) (t + 1) := (retired_succ _ t).symm
  rw [hsucc] at hends
  rw [NpcHost.cycleEvents, (hrun.hostExec h hfailed (t + 1)).not_abortsNow,
    if_neg Bool.false_ne_true, List.append_nil]
  split_ifs with he hn hn
  · rw [hrun.cgetReg_eq h hfailed hend hn]
  · -- No instruction before ends the program.
    obtain ⟨k, hk, hke⟩ := hends.mp he
    rw [hexec k (by omega)] at hke
    contradiction
  · exact absurd (hends.mpr ⟨n, hn, hend⟩) he
  · rfl

/-- What happens in a call of `exec_once`: nothing up to the one in which the program ends, and in
that one only `ebreak`, with `a0`. -/
theorem events_eq {k n : ℕ} (hexec : Executed (hostProgram inp y) n)
    (hend : (controlD (hostProgram inp y n).instr).ebreakE = true) (hk : k ≤ n + 1)
    (mismatch : ℕ → Bool) :
    ∃ j, ((NpcHost.program y mismatch).call k).events =
      if k = n + 1 then
        List.replicate (j + 1) (.ebreak ((hostProgram inp y n).rf.read true 10#5))
      else [] := by
  obtain ⟨j, hj, hcount, -⟩ := hrun.execOnce_spec (hrun.retired_callStart k)
  refine ⟨j, ?_⟩
  change (NpcHost.execOnce y 6 (NpcHost.callStart y k)).2 = _
  rw [hj]
  have hcycle : ∀ i ∈ List.range (j + 1), NpcHost.cycleEvents y (NpcHost.callStart y k + i) =
      if k = n + 1 then [.ebreak ((hostProgram inp y n).rf.read true 10#5)] else [] := by
    intro i hi
    have hc := hcount i (Nat.le_of_lt_succ (List.mem_range.mp hi))
    rw [hrun.cycleEvents_eq h hfailed hexec hend (by rw [hc]; exact hk), hc]
  rw [List.flatMap_congr hcycle]
  split_ifs
  · simp [List.flatMap_def, List.map_const']
  · simp

end HostRun

/-! ## The session in batch mode -/

namespace Simulator

variable (p : Program) (r : Word) (i : ℕ)

/-- A call in which nothing happens. -/
theorem executeStep_quiet (he : (p.call i).events = []) (hm : i = 0 ∨ (p.call i).mismatch = false)
    (hw : p.checkWp i = false) :
    (⟨.running, r, i⟩ : Simulator).executeStep p = ⟨.running, r, i + 1⟩ := by
  have hx : (⟨.running, r, i⟩ : Simulator).execOnce p = ⟨.running, r, i + 1⟩ := by
    rw [execOnce]
    simp only [he, List.foldl_nil]
  rw [executeStep, hx]
  rcases hm with rfl | hm
  · simp [hw]
  · simp [traceAndDifftest, hm, hw]

/-- A call after which the registers are found to differ. -/
theorem executeStep_mismatch (s : Simulator) (hi : s.calls ≠ 0)
    (hm : (p.call s.calls).mismatch = true) : (s.executeStep p).state = .abort := by
  rw [executeStep]
  simp [traceAndDifftest, hm, hi]

/-- A call in which `ebreak` is called. -/
theorem executeStep_ebreak {a0 : Word} {j : ℕ}
    (he : (p.call i).events = List.replicate (j + 1) (.ebreak a0)) (hi : i ≠ 0)
    (hm : (p.call i).mismatch = false) :
    (⟨.running, r, i⟩ : Simulator).executeStep p = ⟨.ended, a0, i + 1⟩ := by
  have hstop : ∀ (j : ℕ) (s : Simulator),
      (List.replicate (j + 1) (Event.ebreak a0)).foldl event s = s.stop a0 := by
    intro j
    induction j with
    | zero => exact fun _ => rfl
    | succ j ih =>
      intro s
      rw [List.replicate_succ, List.foldl_cons, ih]
      rfl
  have hx : (⟨.running, r, i⟩ : Simulator).execOnce p = ⟨.ended, a0, i + 1⟩ := by
    rw [execOnce]
    simp only [he, hstop, stop]
  rw [executeStep, hx]
  simp [traceAndDifftest, hm, hi]

/-- Nothing happens in the first calls. -/
theorem execute_quiet {k : ℕ} (n : ℕ) (hq : ∀ i < k, (p.call i).events = [] ∧
      (i = 0 ∨ (p.call i).mismatch = false) ∧ p.checkWp i = false) :
    execute p (n + k) ⟨.running, r, 0⟩ = execute p n ⟨.running, r, k⟩ := by
  induction k generalizing n with
  | zero => rfl
  | succ k ih =>
    obtain ⟨he, hm, hw⟩ := hq k (Nat.lt_succ_self k)
    rw [show n + (k + 1) = n + 1 + k by omega, ih (n + 1) fun i hi => hq i (Nat.lt_succ_of_lt hi),
      execute, executeStep_quiet p r k he hm hw]
    rfl

/-- The execution goes on to the first call in which something happens. -/
theorem cpuExec_quiet {k n : ℕ} (hk : k < n) (hq : ∀ i < k, (p.call i).events = [] ∧
      (i = 0 ∨ (p.call i).mismatch = false) ∧ p.checkWp i = false)
    (hs : ((⟨.running, 0#32, k⟩ : Simulator).executeStep p).state ≠ .running) :
    init.cpuExec p n = (⟨.running, 0#32, k⟩ : Simulator).executeStep p := by
  have hx : execute p n ⟨.running, 0#32, 0⟩ = (⟨.running, 0#32, k⟩ : Simulator).executeStep p := by
    rw [show n = n - k - 1 + 1 + k by omega, execute_quiet p 0#32 (n - k - 1 + 1) hq, execute]
    exact if_pos hs
  rw [cpuExec, if_neg (by decide)]
  change (let s := execute p n ⟨.running, 0#32, 0⟩
    if s.state = .running then { s with state := .stop } else s) = _
  rw [hx]
  exact if_neg hs

end Simulator

/-- The words `lui x1, 0x10000`, `lw x10, 0(x1)`, `ebreak`, and `j 0`: the program returns the
character that it reads from the UART. -/
def returnsChar : ByteMem 32 :=
  ByteMem.ofWords pcRst [0x100000b7#32, 0x0000a503#32, 0x00100073#32, 0x0000006f#32]

/-- The inputs of a cycle, where `getchar` returns 7. -/
def typesSeven : NpcIn := ⟨⟨7#32, 0#64⟩, ⟨7#32, 0#64⟩, 0#8, false, false⟩

namespace ReturnsChar

/-- The program reads one word of a device. -/
theorem seq_eq {device : ℕ → Word} (h : device 1 = 7#32) :
    hostSeq returnsChar device = hostSeqRun returnsChar fun _ => 7#32 := by
  refine hostSeq_eq_of_j0 (e := 3) (by decide +kernel) fun k hk hl => .inr ?_
  have hone : k = 1 := (by decide +kernel : ∀ k < 3,
    (hostSeqRun returnsChar (fun _ => 7#32) k).em.memReadM = true → k = 1) k hk hl
  rw [hone, h]

theorem hostProgram : HostProgram (hostSeqRun returnsChar fun _ => 7#32) where
  toHazardFree := by
    have hj : (hostSeqRun returnsChar (fun _ => 7#32) 3).instr = 0x6f#32 := by decide +kernel
    apply HazardFree.of_j0 hj <;> decide +kernel
  fetch p hp := by
    have hj : (hostSeqRun returnsChar (fun _ => 7#32) 3).instr = 0x6f#32 := by decide +kernel
    exact inPmem_of_j0 (l := 4) hj (by decide +kernel) (by decide +kernel) (by decide) hp
  access n := by
    rcases Nat.lt_or_ge n 3 with hn | hn
    · have hall : ∀ n < 3, ((hostSeqRun returnsChar (fun _ => 7#32) n).em.memReadM = true →
            Host.readable (hostSeqRun returnsChar (fun _ => 7#32) n).em.aluResultM = true) ∧
          (hostSeqRun returnsChar (fun _ => 7#32) n).em.memWriteM = false := by decide +kernel
      refine ⟨fun hr => .inr ((hall n hn).1 hr), fun hw => ?_⟩
      rw [(hall n hn).2] at hw
      contradiction
    · have hj : (hostSeqRun returnsChar (fun _ => 7#32) 3).instr = 0x6f#32 := by decide +kernel
      have hc : (hostSeqRun returnsChar (fun _ => 7#32) n).em.toControlM = (controlD 0x6f#32).toM :=
        congrArg (fun w => (controlD w).toM) (SeqRun.of_j0 hj hn).2.2.1
      constructor
      · rw [hc]
        exact fun hr => absurd hr (by decide)
      · rw [hc]
        exact fun hw => absurd hw (by decide)

end ReturnsChar

/-- The run of the program. -/
def returnsCharRun : ℕ → NpcHost :=
  Clocked.run NpcHost.step (NpcHost.init returnsChar) fun _ => typesSeven

/-- The word that the device answers is that of the load, which leaves M in cycle 5. -/
theorem returnsCharRun_seq : (hostProgram (fun _ => typesSeven) returnsCharRun).state =
    hostSeqRun returnsChar fun _ => 7#32 := by
  refine ReturnsChar.seq_eq ?_
  have hvalid : (returnsCharRun 5).npc.core.validM ((returnsCharRun 5).input typesSeven) =
      true := by
    decide +kernel
  have hcount : Nat.count (fun t => (returnsCharRun t).npc.core.validM
      ((returnsCharRun t).input typesSeven) = true) 5 = 1 := by decide +kernel
  have hnth := Nat.nth_count (p := fun t => (returnsCharRun t).npc.core.validM
    ((returnsCharRun t).input typesSeven) = true) hvalid
  rw [hcount] at hnth
  rw [dataWords, hnth]
  decide +kernel

end RV32Pipeline
