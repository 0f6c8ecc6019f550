import RV32Pipeline.Pipeline.Correctness

/-!
# Write transactions

The write channel is driven by `MemWrite_M`, which keeps its value until the next instruction enters
M. So a store is offered once only if another instruction always follows it into M without a gap. A
store in E does not stall D, and it does not redirect the fetch unless it was predicted taken, and
the branch target buffer does not predict it taken where executed addresses are aligned and the code
is not overwritten.
-/

namespace RV32Pipeline

/-- Along the run `s` from `mem`, executed instructions are at aligned addresses, branches and jumps
have aligned targets, and no store writes a byte of an executed word. -/
structure AlignedRun (mem : Memories) (inp : ℕ → DatapathIn) (s : ℕ → Datapath) : Prop where
  pc : ∀ t, (s t).ctl.validE = true → Aligned (s t).de.pcRegE
  direct : ∀ t, (s t).ctl.validE = true → isDirectJump (mem.fetch (s t).de.pcRegE) = true →
    Aligned (directTarget (s t).de.pcRegE (mem.fetch (s t).de.pcRegE))
  indirect : ∀ t, (s t).ctl.validE = true → ((s t).de.jalrE || (s t).de.mretE) = true →
    Aligned (s t).pcCorrectionPath
  fixed : ∀ t u, ∀ w ∈ (s t).storeEntersM (inp t), (s u).ctl.validE = true →
    ¬ ByteMem.Overlaps w.1 w.2.2 (s u).de.pcRegE

/-- The byte that a write transaction offers to the UART: the lowest one, at `UART_DATA_ADDR`. -/
def uartOffer (w : Option Write) : Option (BitVec 8) :=
  w.bind fun w => if w.1 = uartDataAddr then some (w.2.1.extractLsb' 0 8) else none

/-- Each executed store is offered in exactly one cycle, and nothing else is. -/
structure StoresOnce (inp : ℕ → DatapathIn) (s : ℕ → Datapath) : Prop where
  /-- Before the first store there is no transaction. -/
  zero : (s 0).em.write = none
  /-- The transaction of a cycle is the store that has just entered M. -/
  succ : ∀ t, (s (t + 1)).em.write = (s t).storeEntersM (inp t)
  /-- A transaction is offered in the cycle before a store writes back. -/
  writeBack : ∀ t, (s t).em.memWriteM = true ↔
    (s (t + 1)).ctl.validW = true ∧ (controlD (s (t + 1)).instrWR).memWriteE = true
  /-- The bytes offered to the UART are those of the stores to `UART_DATA_ADDR`, in order. -/
  uart : ∀ t, Clocked.log (fun u => uartOffer (s u).em.write) (t + 1) =
    Clocked.log (fun u => uartOffer ((s u).storeEntersM (inp u))) t

namespace AlignedRun

variable {inp : ℕ → DatapathIn} {look : ℕ → Lookup} {s : ℕ → Datapath} {m : ℕ → Memories}
  (h : AlignedRun (m 0) inp s) (hrun : MemRun inp look s m)

/-- The code of the run: the addresses are those of executed instructions. -/
def code {mem : Memories} (h : AlignedRun mem inp s) : Code where
  path p := ∃ t, (s t).ctl.validE = true ∧ (s t).de.pcRegE = p
  word := mem.fetch
  aligned := by
    rintro _ ⟨t, hv, rfl⟩
    exact h.pc t hv
  target := by
    rintro _ ⟨t, hv, rfl⟩ hd
    exact h.direct t hv hd

/-- A correction of the PC goes to an aligned address. -/
theorem aligned_pcCorrectionPath {k : Code} {mem : Memories} (h : AlignedRun mem inp s)
    (hk : k.word = mem.fetch) {t : ℕ} (hf : FrontEnd k (s t)) (hv : (s t).ctl.validE = true) :
    Aligned (s t).pcCorrectionPath := by
  cases hi : (s t).de.jalrE || (s t).de.mretE
  · rw [Bool.or_eq_false_iff] at hi
    have hc := hf.control hv
    simp only [Datapath.pcCorrectionPath, BufferDE.pcCorrectionPath, hi.2, Bool.false_eq_true,
      if_false]
    split_ifs with hj
    · have hd : isDirectJump (mem.fetch (s t).de.pcRegE) = true := by
        simp only [BufferDE.jumpSign, hi.1, Bool.false_or, Bool.or_eq_true, Bool.and_eq_true] at hj
        rw [hc, hk] at hj
        simp only [isDirectJump, Bool.or_eq_true]
        exact hj.symm.imp And.left id
      rw [BufferDE.jumpTarget, hi.1]
      simp only [Bool.false_eq_true, if_false, BufferDE.pcJump, hc, hk]
      exact h.direct t hv hd
    · exact (h.pc t hv).add_four
  · exact h.indirect t hv hi

include hrun

omit h in
/-- A transaction is that of a store that has entered M. -/
theorem exists_storeEntersM (t : ℕ) : ∀ w ∈ (s t).em.write, ∃ u, w ∈ (s u).storeEntersM (inp u) := by
  induction t with
  | zero =>
    intro w hw
    rw [hrun.reset.em] at hw
    contradiction
  | succ t ih =>
    intro w hw
    rw [hrun.edge, Datapath.edge_em (hrun.rst t)] at hw
    cases hb : (s t).ctl.validE && (s t).readyM (inp t)
    · rw [hb] at hw
      exact ih w hw
    · rw [hb] at hw
      exact ⟨t, by rwa [Datapath.storeEntersM, hb]⟩

include h

/-- The executed words do not change. -/
theorem fetch (t : ℕ) {p : Word} (hp : h.code.path p) : (m t).fetch p = (m 0).fetch p := by
  induction t with
  | zero => rfl
  | succ t ih =>
    obtain ⟨u, hv, rfl⟩ := hp
    rw [hrun.commit, ← ih]
    refine (m t).fetch_commit fun w hw => ?_
    obtain ⟨u', hu'⟩ := exists_storeEntersM hrun t w hw
    exact h.fixed u' u w hu' hv

/-- The front end follows the code in every cycle. -/
theorem frontEnd (hlook : ∀ t, (look t).btbHitF = true → look t = (s t).lookup) (t : ℕ) :
    FrontEnd h.code (s t) := by
  induction t with
  | zero => exact FrontEnd.afterReset hrun.reset
  | succ t ih =>
    have hE' : (s (t + 1)).ctl.validE = true → h.code.path (s (t + 1)).de.pcRegE :=
      fun hv => ⟨t + 1, hv, rfl⟩
    rw [hrun.edge] at hE' ⊢
    refine ih.edge (hrun.rst t) (hrun.inv t) hE' (fun hready hp => ?_) (hlook t) fun hp => ?_
    · rw [hrun.fetch t hready, h.fetch hrun t hp]
      rfl
    · rw [Datapath.preWrongValid, Bool.and_eq_true] at hp
      exact h.aligned_pcCorrectionPath rfl ih hp.2

/-- While a store is in M, an instruction is in E that follows it into M at the next edge. -/
theorem next_of_memWriteM (hlook : ∀ t, (look t).btbHitF = true → look t = (s t).lookup) (t : ℕ)
    (hw : (s t).em.memWriteM = true) :
    (s t).validM (inp t) = true ∧ (s t).readyM (inp t) = true ∧ (s t).ctl.validE = true := by
  induction t with
  | zero =>
    rw [hrun.reset.em] at hw
    contradiction
  | succ t ih =>
    have hrst := hrun.rst t
    have hi := hrun.inv t
    have hf := h.frontEnd hrun hlook t
    rw [hrun.edge, Datapath.edge_em hrst] at hw
    cases hb : (s t).ctl.validE && (s t).readyM (inp t)
    · -- The store would already have been in M, with nothing behind it.
      rw [hb] at hw
      obtain ⟨-, hr, hv⟩ := ih hw
      rw [hv, hr] at hb
      contradiction
    · rw [hb] at hw
      rw [Bool.and_eq_true] at hb
      obtain ⟨hv, hr⟩ := hb
      -- The store was in E.
      have hc := hi.controlE hv
      have hstore : (controlD (s t).instrER).memWriteE = true := by
        rw [← hc]
        exact hw
      obtain ⟨hload, hjal, hjalr, hbr, hmret⟩ := other_of_memWriteE hstore
      rw [← hc] at hload hjal hjalr hbr hmret
      -- It is no direct jump, so no entry predicts it taken.
      have hpred : (s t).de.predictE = false := by
        by_contra hp
        have hd := other_of_isDirectJump (hf.directE hv (by simpa using hp))
        rw [← hf.control hv] at hd
        have hw' : (s t).de.memWriteE = true := hw
        rw [hd.2.1] at hw'
        contradiction
      -- So it does not redirect, and D is filled behind it.
      have hpw : (s t).preWrong = false := by
        simp [Datapath.preWrong, BufferDE.preWrong, BufferDE.jumpSign, hjal, hjalr, hbr, hmret, hpred]
      have hstate : (s (t + 1)).ctl.mState = .ready := by
        rw [hrun.edge, Datapath.edge_mState_of_readyM hrst hi.mState hr, hv, hload]
        rfl
      have hvM : (s (t + 1)).validM (inp (t + 1)) = true := by
        simp [Datapath.validM, ValidCtrl.validM, hstate]
      refine ⟨hvM, Datapath.readyM_of_validM (hrun.rst _) hvM, ?_⟩
      have hst : (s t).stallD (inp t) = false := by
        rw [Datapath.stallD_of_readyM hr, Datapath.loadUse, hload]
        simp
      rw [hrun.edge, Datapath.edge_validE_of_readyM hrst hr, Datapath.preWrongValid, hpw,
        Datapath.validD, ValidCtrl.validD, hi.full hv hpw, hst]
      rfl

end AlignedRun

/-- If another instruction follows every store into M, each store is offered in one cycle. -/
theorem StoresOnce.of_next {inp : ℕ → DatapathIn} {look : ℕ → Lookup} {s : ℕ → Datapath}
    (hrun : CoreRun inp look s) (hnext : ∀ t, (s t).em.memWriteM = true →
      (s t).validM (inp t) = true ∧ (s t).readyM (inp t) = true ∧ (s t).ctl.validE = true) :
    StoresOnce inp s := by
  have hzero : (s 0).em.write = none := by rw [hrun.reset.em]; rfl
  -- M offers a store in the cycle after the one in which it enters, and in no other.
  have hsucc : ∀ t, (s (t + 1)).em.write = (s t).storeEntersM (inp t) := by
    intro t
    rw [hrun.edge, Datapath.edge_em (hrun.rst t), Datapath.storeEntersM]
    cases hb : (s t).ctl.validE && (s t).readyM (inp t)
    · have hw : (s t).em.memWriteM = false := by
        by_contra hw
        obtain ⟨-, hr, hv⟩ := hnext t (by simpa using hw)
        rw [hv, hr] at hb
        contradiction
      simp [BufferEM.write, hw]
    · rfl
  refine ⟨hzero, hsucc, fun t => ?_, Clocked.log_delay ?_ fun t => ?_⟩
  · -- It is written back when it leaves M.
    have hM : (s t).validM (inp t) = true →
        ((s t).em.memWriteM = true ↔ (controlD (s t).instrMR).memWriteE = true) := fun hv => by
      rw [(hrun.inv t).controlM (Datapath.occM_of_validM hv)]
      rfl
    rw [hrun.edge, Datapath.edge_validW (hrun.rst t), Datapath.edge_instrWR (hrun.rst t)]
    constructor
    · intro hw
      have hv := (hnext t hw).1
      rw [hv]
      exact ⟨rfl, (hM hv).mp hw⟩
    · rintro ⟨hv, hw⟩
      rw [hv] at hw
      exact (hM hv).mpr hw
  · rw [hzero]
    rfl
  · rw [hsucc]

/-- Along every run whose executed addresses and jump targets are aligned and whose stores do not
write an executed word, with any timing of the responses, each executed store is offered to the bus
in exactly one cycle, and nothing else is. -/
theorem storesOnce (y₀ : System) (bus : ℕ → Bus) (hreset : y₀.core.AfterReset)
    (h : AlignedRun y₀.mem (fun t => (Clocked.run System.step y₀ bus t).input (bus t))
      fun t => (Clocked.run System.step y₀ bus t).core) :
    StoresOnce (fun t => (Clocked.run System.step y₀ bus t).input (bus t))
      fun t => (Clocked.run System.step y₀ bus t).core :=
  have hrun := System.memRun_step y₀ bus hreset
  StoresOnce.of_next hrun.toCoreRun (h.next_of_memWriteM hrun fun _ _ => rfl)

/-- A run over a hazard-free program is aligned. -/
theorem HazardFree.alignedRun {inp : ℕ → DatapathIn} {look : ℕ → Lookup} {s : ℕ → Datapath}
    {m : ℕ → Memories} (h : HazardFree (seq (m 0))) (hrun : MemRun inp look s m)
    (hlook : ∀ t, (look t).btbHitF = true → look t = (s t).lookup) : AlignedRun (m 0) inp s := by
  have hsim := fun t => (h.run hrun hlook t).1
  constructor
  · intro t hv
    rw [((hsim t).ex hv).pc]
    exact h.aligned _
  · intro t hv
    have hfetch : (m 0).fetch (seqRun (m 0) ((s t).idxE (retired s t))).pc =
        (seqRun (m 0) ((s t).idxE (retired s t))).instr :=
      (CodeFixed.fetch (σ := seqRun (m 0)) h.fixed _ _).symm
    rw [((hsim t).ex hv).pc, hfetch]
    exact h.target _
  · intro t hv _
    rw [((hsim t).ex hv).pcCorrectionPath ((seqRun (m 0)).rdata _), ← (seqRun (m 0)).step]
    exact h.aligned (_ + 1)
  · intro t u w hw hv
    rw [Datapath.storeEntersM] at hw
    split_ifs at hw with hb
    · rw [Bool.and_eq_true] at hb
      rw [((hsim t).ex hb.1).emIn.write] at hw
      rw [((hsim u).ex hv).pc]
      exact h.fixed _ _ w hw
    · contradiction

/-- The loop of stores offers each of its stores once. -/
theorem storesOnce_storeLoop :
    StoresOnce (fun t => (storeLoopRun t).input ⟨true, 0#32, 0#32⟩)
      fun t => (storeLoopRun t).core :=
  storesOnce ⟨Datapath.reset, storeLoop⟩ (fun _ => ⟨true, 0#32, 0#32⟩) Datapath.afterReset_reset
    (storeLoop_baseProgram.hazardFree.alignedRun storeLoopRun_ok.1 fun _ _ => rfl)

end RV32Pipeline
