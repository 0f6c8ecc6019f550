import Mathlib.Data.Nat.Nth
import RV32Pipeline.Pipeline.Correctness

/-!
# Branch prediction and what is committed

The core with its branch target buffer and the core with `btb_hit_F` tied to 0 are compared by what
they commit, each over its own timing of the responses. Without hits nothing is predicted taken, and
the simulation goes through for every program of base instructions that leaves three instructions
between a store to its code and the fetch. With hits it goes through as long as a jump that was
predicted taken was predicted to its own target: `Pre_Wrong` does not compare the targets, and an
entry that hits is not written again when the jump at its address is replaced by another one.
-/

namespace RV32Pipeline

/-! ## Programs that store to their code -/

/-- A store of the sequential machine does not write a byte of the next `d` words that it
executes. -/
def StoresFar (mem : Memories) (d : ℕ) : Prop :=
  ∀ n k, 1 ≤ k → k ≤ d → ∀ w ∈ (seq mem n).em.write,
    ¬ ByteMem.Overlaps w.1 w.2.2 (seq mem (n + k)).pc

/-- With at least three instructions between a store and a fetch of what it writes, the memory and
the fetch agree. -/
theorem StoresFar.coherent {mem : Memories} {d : ℕ} (h : StoresFar mem d) (hd : 3 ≤ d) :
    Coherent (seq mem) := by
  intro n k hk
  induction k generalizing n with
  | zero => rfl
  | succ k ih =>
    have hs := ih (n + 1) (by omega)
    rw [show n + 1 + k = n + (k + 1) by omega] at hs
    rw [← hs, seq_succ]
    exact (Arch.fetch_next _ (h n (k + 1) (by omega) (by omega))).symm

/-! ## Without hits nothing is predicted taken -/

namespace CoreRun

variable {inp : ℕ → DatapathIn} {look : ℕ → Lookup} {s : ℕ → Datapath}

/-- Neither D nor E holds a word that was predicted taken. -/
theorem predict_of_noHit (h : CoreRun inp look s) (hno : ∀ t, (look t).btbHitF = false) (t : ℕ) :
    (s t).fd.predictD = false ∧ (s t).de.predictE = false := by
  induction t with
  | zero =>
    obtain ⟨p, i, l, hrst, hs⟩ := h.reset
    rw [hs]
    simp [Datapath.edge, bufferNext, hrst, BufferFD.reset, BufferDE.reset]
  | succ t ih =>
    rw [h.edge, Datapath.edge_fd (h.rst t), Datapath.edge_de (h.rst t)]
    constructor
    · split_ifs
      · simp [Datapath.fdIn, Datapath.predictF, hno t]
      · exact ih.1
    · split_ifs
      · exact ih.1
      · exact ih.2

/-- A load that was not predicted taken does not redirect the fetch, so no redirect is lost. -/
theorem redirectOk_of_not_predictE (h : CoreRun inp look s) {t : ℕ}
    (hp : (s t).de.predictE = false) : (s t).RedirectOk (inp t) :=
  (h.inv t).redirectOk fun hv hl => by rw [hp]

end CoreRun

/-! ## Commits -/

/-- What an instruction commits: its address, and its register with the value, if it has one. -/
abbrev Commit := Word × Option (BitVec 5 × Word)

/-- What a buffer in W commits. -/
def BufferMW.commit (b : BufferMW) : Commit :=
  (b.pcRegW, if b.regWriteW then some (b.rdW, b.wdata) else none)

/-- What the core commits in a cycle. -/
def Datapath.commit (s : Datapath) : Option Commit :=
  if s.ctl.validW then some s.mw.commit else none

/-- The core commits what the sequential machine does. -/
theorem WbMatches.commit {b : BufferMW} {a : Arch} {v : Word} (h : WbMatches b a v) :
    b.commit = (a.mwWith v).commit := by
  have hc : (a.mwWith v).toControlW = (controlD a.instr).toM.toW := rfl
  have hpc : (a.mwWith v).pcRegW = a.pc := rfl
  simp only [BufferMW.commit, h.pc, hpc, h.control, hc]
  cases hw : (controlD a.instr).toM.toW.regWriteW
  · rfl
  · rw [h.wdata hw]

/-- The commits before a cycle are those of as many instructions of the sequential machine. -/
theorem commit_log {σ : SeqRun} {s : ℕ → Datapath} {m : ℕ → Memories}
    (hsim : ∀ t, Sim σ (retired s t) (s t) (m t)) (t : ℕ) :
    Clocked.log (fun u => (s u).commit) t =
      Clocked.log (fun n => some ((σ n).mwWith (σ.rdata n)).commit) (retired s t) := by
  refine Clocked.log_follow (d := retired s) (by simp [retired]) (fun u => ?_) t
  rw [retired_succ, Datapath.idxM, Datapath.commit]
  rcases Bool.eq_false_or_eq_true (s u).ctl.validW with hv | hv
  · right
    rw [hv, if_pos rfl, ((hsim u).wb hv).commit]
    exact ⟨rfl, rfl⟩
  · left
    rw [hv]
    exact ⟨rfl, rfl⟩

/-! ## Every run with a fair bus goes on committing -/

/-- The response to a read comes again and again. -/
def Fair (rvalid : ℕ → Bool) : Prop := ∀ t, ∃ u ≥ t, rvalid u = true

namespace CoreRun

variable {inp : ℕ → DatapathIn} {look : ℕ → Lookup} {s : ℕ → Datapath} (h : CoreRun inp look s)
  (hfair : Fair fun t => (inp t).dataAxiRvalid)
include h hfair

/-- The instruction in M writes back. -/
theorem exists_validW_of_occM {t : ℕ} (ho : (s t).occM = true) :
    ∃ u > t, (s u).ctl.validW = true := by
  obtain ⟨u, hu, hrv⟩ := hfair t
  -- By induction on the wait for the next response.
  induction hn : u - t generalizing t with
  | zero =>
    have hut : u = t := by omega
    subst hut
    -- With a response M is ready.
    have hr : (s u).readyM (inp u) = true := by
      by_contra hr
      have hw := (Datapath.load_of_not_readyM (h.rst u) (h.inv u).mState (by simpa using hr)).2.1
      exact absurd (hw.symm.trans hrv) (by decide)
    refine ⟨u + 1, by omega, ?_⟩
    rw [h.edge, Datapath.edge_validW (h.rst u),
      Datapath.validM_of_readyM (h.rst u) (h.inv u).mState hr, ho]
  | succ n ih =>
    cases hr : (s t).readyM (inp t)
    · -- M waits, and keeps the instruction.
      have ho' := ((h.inv t).occM_edge_of_not_readyM (l := look t) (h.rst t) hr).1
      rw [← h.edge] at ho'
      obtain ⟨v, hv, hvW⟩ := ih ho' (by omega) (by omega)
      exact ⟨v, by omega, hvW⟩
    · refine ⟨t + 1, by omega, ?_⟩
      rw [h.edge, Datapath.edge_validW (h.rst t),
        Datapath.validM_of_readyM (h.rst t) (h.inv t).mState hr, ho]

/-- The instruction in E comes to M, and writes back. -/
theorem exists_validW_of_validE {t : ℕ} (hv : (s t).ctl.validE = true) :
    ∃ u > t, (s u).ctl.validW = true := by
  rcases Bool.eq_false_or_eq_true (s t).occM with ho | ho
  · exact h.exists_validW_of_occM hfair ho
  · have hr := Datapath.readyM_of_not_occM (i := inp t) ho
    have ho' := (h.inv t).occM_edge_of_readyM (l := look t) (h.rst t) hr
    rw [← h.edge, hv] at ho'
    obtain ⟨u, hu, hvW⟩ := h.exists_validW_of_occM hfair ho'
    exact ⟨u, by omega, hvW⟩

/-- The word in D comes to E, unless an older instruction flushes it. -/
theorem exists_validW_of_validDReg {t : ℕ} (hv : (s t).ctl.validDReg = true) :
    ∃ u > t, (s u).ctl.validW = true := by
  rcases Bool.eq_false_or_eq_true (s t).occM with ho | ho
  · exact h.exists_validW_of_occM hfair ho
  · rcases Bool.eq_false_or_eq_true (s t).ctl.validE with hE | hE
    · exact h.exists_validW_of_validE hfair hE
    · have hr := Datapath.readyM_of_not_occM (i := inp t) ho
      have hst := Datapath.stallD_of_not_validE hr hE
      have hp := Datapath.preWrongValid_of_not_validE hE
      have hE' : (s (t + 1)).ctl.validE = true := by
        rw [h.edge, Datapath.edge_validE_of_readyM (h.rst t) hr, hp, Datapath.validD,
          ValidCtrl.validD, hv, hst]
        rfl
      obtain ⟨u, hu, hvW⟩ := h.exists_validW_of_validE hfair hE'
      exact ⟨u, by omega, hvW⟩

/-- There is always a next write-back. -/
theorem exists_validW (t : ℕ) : ∃ u > t, (s u).ctl.validW = true := by
  rcases Bool.eq_false_or_eq_true (s t).occM with ho | ho
  · exact h.exists_validW_of_occM hfair ho
  · rcases Bool.eq_false_or_eq_true (s t).ctl.validE with hE | hE
    · exact h.exists_validW_of_validE hfair hE
    · have hr := Datapath.readyM_of_not_occM (i := inp t) ho
      have hst := Datapath.stallD_of_not_validE hr hE
      have hp := Datapath.preWrongValid_of_not_validE hE
      have hD' : (s (t + 1)).ctl.validDReg = true := by
        rw [h.edge, Datapath.edge_validDReg_of_readyM (h.rst t) hr, hp, hst]
        rfl
      obtain ⟨u, hu, hvW⟩ := h.exists_validW_of_validDReg hfair hD'
      exact ⟨u, by omega, hvW⟩

/-- Every number of instructions is written back at some time. -/
theorem exists_retired (n : ℕ) : ∃ t, retired s t = n := by
  have hinf : (Set.ofPred fun u => (s u).ctl.validW = true).Infinite :=
    Set.infinite_of_forall_exists_gt fun t =>
      let ⟨u, hu, hv⟩ := h.exists_validW hfair t
      ⟨u, hv, hu⟩
  exact ⟨_, Nat.count_nth_of_infinite hinf n⟩

end CoreRun

/-! ## The two cores commit the same -/

/-- What the core has committed before each cycle of a run. -/
def commits (y : ℕ → System) (t : ℕ) : List Commit := Clocked.log (fun u => (y u).core.commit) t

/-- The commits of two runs agree: at any two cycles, the one that has committed less has committed
a prefix of the other; and if the responses keep coming, both commit any number of instructions. -/
structure SameCommits (bus bus' : ℕ → Bus) (y y' : ℕ → System) : Prop where
  comparable : ∀ t t', commits y t <+: commits y' t' ∨ commits y' t' <+: commits y t
  unbounded : (Fair fun t => (bus t).rvalid) → (Fair fun t => (bus' t).rvalid) →
    ∀ n, ∃ t t', commits y t = commits y' t' ∧ (commits y t).length = n

/-- Two runs that simulate the same sequence commit the same. -/
theorem sameCommits_of_sim {σ : SeqRun} {bus bus' : ℕ → Bus} {look look' : ℕ → Lookup}
    {y y' : ℕ → System}
    (hrun : CoreRun (fun t => (y t).input (bus t)) look fun t => (y t).core)
    (hrun' : CoreRun (fun t => (y' t).input (bus' t)) look' fun t => (y' t).core)
    (hsim : ∀ t, Sim σ (retired (fun u => (y u).core) t) (y t).core (y t).mem)
    (hsim' : ∀ t, Sim σ (retired (fun u => (y' u).core) t) (y' t).core (y' t).mem) :
    SameCommits bus bus' y y' where
  comparable t t' := by
    simp only [commits, commit_log hsim, commit_log hsim']
    exact (le_total _ _).imp (Clocked.log_prefix _) (Clocked.log_prefix _)
  unbounded hfair hfair' n := by
    obtain ⟨t, ht⟩ := hrun.exists_retired hfair n
    obtain ⟨t', ht'⟩ := hrun'.exists_retired hfair' n
    refine ⟨t, t', ?_, ?_⟩
    · simp only [commits, commit_log hsim, commit_log hsim', ht, ht']
    · rw [commits, commit_log hsim, ht, Clocked.length_log_some]

/-- For every program of base instructions with at least eight instructions between a store to its
code and the fetch, and every timing of the responses on either side: the core with its branch
target buffer commits what it commits without hits, as long as no redirect is raised while D stalls
and each jump that was predicted taken was predicted to its own target. -/
theorem sameCommits_of_targetOk (y₀ y₀' : System) (bus bus' : ℕ → Bus)
    (hreset : y₀.core.AfterReset) (hreset' : y₀'.core.AfterReset) (hmem : y₀'.mem = y₀.mem)
    (hbase : ∀ n, isBase (seq y₀.mem n).instr = true) (hfar : StoresFar y₀.mem 8)
    (hredirect : ∀ t, let y := Clocked.run System.step y₀ bus t
      y.core.RedirectOk (y.input (bus t)))
    (htarget : ∀ t, (Clocked.run System.step y₀ bus t).core.TargetOk) :
    SameCommits bus bus' (Clocked.run System.step y₀ bus)
      (Clocked.run System.stepNoHit y₀' bus') := by
  have hco := hfar.coherent (by decide)
  have hno := NoHazard.of_isBase hbase
  have hrun := System.memRun_step y₀ bus hreset
  have hrun' := System.memRun_stepNoHit y₀' bus' hreset'
  have hpred := hrun'.predict_of_noHit fun _ => rfl
  refine sameCommits_of_sim hrun.toCoreRun hrun'.toCoreRun (hno.run_sim hrun hco hredirect htarget)
    ?_
  have hsim' := NoHazard.run_sim (m := fun t => (Clocked.run System.stepNoHit y₀' bus' t).mem)
    (by simpa [hmem] using hno) hrun' (by simpa [hmem] using hco)
    (fun t => hrun'.redirectOk_of_not_predictE (hpred t).2)
    (fun t _ _ hp => by rw [(hpred t).2] at hp; contradiction)
  simpa [hmem] using hsim'

/-- The loop of stores commits the same with and without hits. -/
theorem sameCommits_of_targetOk_storeLoop :
    SameCommits (fun _ => ⟨true, 0#32, 0#32⟩) (fun _ => ⟨true, 0#32, 0#32⟩) storeLoopRun
      (Clocked.run System.stepNoHit ⟨Datapath.reset, storeLoop⟩ fun _ => ⟨true, 0#32, 0#32⟩) :=
  sameCommits_of_targetOk ⟨Datapath.reset, storeLoop⟩ ⟨Datapath.reset, storeLoop⟩ _ _
    Datapath.afterReset_reset Datapath.afterReset_reset rfl storeLoop_baseProgram.base
    (fun n k _ _ => storeLoop_baseProgram.fixed n (n + k)) storeLoopRun_ok.2.redirect
    storeLoopRun_ok.2.target

/-! ## A jump that is replaced -/

/-- A program that jumps from the reset address to the words at 0x20, which replace that jump by one
to the next word and go back to it: `jal x0, 32`, `addi x5, x0, 2`, `j 0`, and at 0x20
`auipc x1, 0`, `lw x2, 52(x1)`, `sw x2, -32(x1)`, eight times `nop`, `jal x0, -76`, and at 0x54 the
word `jal x0, 4`. -/
def jalReplaced : Memories :=
  let image := ByteMem.ofWords pcRst
    [0x0200006f#32, 0x00200293#32, 0x6f#32, 0#32, 0#32, 0#32, 0#32, 0#32, 0x00000097#32,
      0x0340a103#32, 0xfe20a023#32, 0x13#32, 0x13#32, 0x13#32, 0x13#32, 0x13#32, 0x13#32, 0x13#32,
      0x13#32, 0xfb5ff06f#32, 0#32, 0x0040006f#32]
  ⟨true, image, image⟩

/-- From the fifteenth instruction on the program stays at its `j 0`. -/
theorem jalReplaced_seq (n : ℕ) (hn : 15 ≤ n) : (seq jalReplaced n).pc = 0x80000008#32 ∧
    (seq jalReplaced n).instr = 0x6f#32 ∧ (seq jalReplaced n).em.write = none := by
  have hj : (seqRun jalReplaced 15).instr = 0x6f#32 := by decide +kernel
  obtain ⟨hpc, -, hstay⟩ := SeqRun.of_j0 hj hn
  exact ⟨hpc.trans (by decide +kernel), hstay⟩

/-- The replaced jump is followed to the target of the old one where the entry of the old one hits:
its direction is predicted right. Without hits it is followed to its own target. -/
theorem not_sameCommits : ¬ ∀ (mem : Memories) (bus bus' : ℕ → Bus),
    (∀ n, isBase (seq mem n).instr = true) →
    (∀ n, isJump (seq mem n).instr = true → Aligned (seq mem n).target) → StoresFar mem 8 →
    SameCommits bus bus' (Clocked.run System.step ⟨Datapath.reset, mem⟩ bus)
      (Clocked.run System.stepNoHit ⟨Datapath.reset, mem⟩ bus') := by
  intro h
  have hsame := h jalReplaced (fun _ => ⟨true, 0#32, 0#32⟩) (fun _ => ⟨true, 0#32, 0#32⟩) ?_ ?_ ?_
  · -- The two write-backs differ.
    have hc := hsame.comparable 24 26
    revert hc
    decide +kernel
  · intro n
    by_cases hn : n < 15
    · exact (by decide +kernel : ∀ n < 15, isBase (seq jalReplaced n).instr = true) n hn
    · rw [(jalReplaced_seq n (by omega)).2.1]
      decide
  · intro n hj
    by_cases hn : n < 15
    · exact (by decide +kernel : ∀ n < 15, isJump (seq jalReplaced n).instr = true →
        Aligned (seq jalReplaced n).target) n hn hj
    · obtain ⟨hpc, hinstr, -⟩ := jalReplaced_seq n (by omega)
      rw [Arch.target_of_j0 _ hinstr, hpc]
      decide
  · intro n k h1 hk w hw
    by_cases hn : n < 15
    · -- The store that replaces the jump is far enough before it.
      have hall : ∀ n < 15, ∀ k < 9, 1 ≤ k → (seq jalReplaced n).em.write.all (fun w =>
          !decide (ByteMem.Overlaps w.1 w.2.2 (seq jalReplaced (n + k)).pc)) = true := by
        decide +kernel
      simpa using Option.all_eq_true _ _ |>.mp (hall n hn k (by omega) h1) w hw
    · rw [(jalReplaced_seq n (by omega)).2.2] at hw
      contradiction

end RV32Pipeline
