import Mathlib.Data.Nat.Nth
import RV32Pipeline.Pipeline.Correctness

/-!
# Where the cycles go

Every cycle of a run is one of five kinds: an instruction enters E, M waits for a response, D stalls
on a load in E, E flushes D, or D is empty behind a flush. A flush is followed by exactly one cycle
of the last kind, so the number of cycles is that of the instructions, of the waits, of the stalls,
and twice that of the flushes, and one more for the start.
-/

namespace RV32Pipeline

open Clocked (countOf countOf_succ countOf_follow)

namespace Datapath

variable (s : Datapath) (i : DatapathIn)

/-- The instruction in E moves to M at this edge. -/
def leavesE : Bool := s.ctl.validE && s.readyM i

/-- M waits for the response to a read in this cycle. -/
def waits : Bool := !s.readyM i

/-- E flushes D in this cycle. -/
def flushes : Bool := s.readyM i && s.preWrongValid

/-- D stalls on a load in E in this cycle. -/
def stalls : Bool := s.readyM i && !s.preWrongValid && s.ctl.validDReg && s.stallD i

/-- D is empty in this cycle, and takes a word at its end. -/
def refills : Bool := s.readyM i && !s.preWrongValid && !s.ctl.validDReg

/-- D is empty and no flush is ahead: a cycle for the refill is still to come. -/
def refillOwed : Bool := !s.ctl.validDReg && !s.ctl.validE

/-- The number of instructions in E, M, and W. -/
def inFlight : ℕ := s.ctl.validW.toNat + s.occM.toNat + s.ctl.validE.toNat

/-- A cycle is of exactly one of the five kinds. -/
theorem kinds : (s.leavesD i).toNat + (s.waits i).toNat + (s.stalls i).toNat + (s.flushes i).toNat +
    (s.refills i).toNat = 1 := by
  simp only [leavesD, waits, stalls, flushes, refills, validD, ValidCtrl.validD]
  cases s.readyM i <;> cases s.preWrongValid <;> cases s.ctl.validDReg <;> cases s.stallD i <;> rfl

variable {s i} {l : Lookup}

/-- A flush makes D owe a refill, and a refill pays it. -/
theorem Inv.refillOwed_edge (h : s.Inv) (hrst : i.rst = false) :
    (s.edge i l).refillOwed.toNat + (s.refills i).toNat =
      s.refillOwed.toNat + (s.flushes i).toNat := by
  simp only [refillOwed, refills, flushes]
  cases hr : s.readyM i
  · -- While M waits, D can be flushed, but E stays.
    rw [edge_validDReg_of_not_readyM hrst hr, edge_validE_of_not_readyM hrst hr]
    cases hE : s.ctl.validE
    · rw [preWrongValid_of_not_validE hE]
      cases s.ctl.validDReg <;> rfl
    · simp
  · rw [edge_validDReg_of_readyM hrst hr, edge_validE_of_readyM hrst hr]
    cases hp : s.preWrongValid
    · cases hE : s.ctl.validE
      · rw [stallD_of_not_validE hr hE]
        cases s.ctl.validDReg <;> rfl
      · rw [h.validDReg_of_validE hp hE, validD, ValidCtrl.validD, h.validDReg_of_validE hp hE]
        cases s.stallD i <;> rfl
    · cases hE : s.ctl.validE
      · rw [preWrongValid_of_not_validE hE] at hp
        contradiction
      · cases s.ctl.validDReg <;> simp

end Datapath

/-! ## Runs -/

namespace CoreRun

variable {inp : ℕ → DatapathIn} {look : ℕ → Lookup} {s : ℕ → Datapath} (h : CoreRun inp look s)
include h

/-- The number of the next instruction of E grows with the instructions that enter it. -/
theorem idxD_succ (t : ℕ) : (s (t + 1)).idxD (retired s (t + 1)) =
    (s t).idxD (retired s t) + ((s t).leavesD (inp t)).toNat := by
  rw [retired_succ, h.edge]
  cases hr : (s t).readyM (inp t)
  · rw [Datapath.idxD_edge_of_not_readyM (h.rst t) (h.inv t) hr, Datapath.leavesD, hr,
      Bool.and_false, Bool.false_and]
    rfl
  · rw [Datapath.idxD_edge_of_readyM (h.rst t) (h.inv t) hr]

/-- The number of the next instruction of M grows with the instructions that leave E. -/
theorem idxE_succ (t : ℕ) : (s (t + 1)).idxE (retired s (t + 1)) =
    (s t).idxE (retired s t) + ((s t).leavesE (inp t)).toNat := by
  rw [retired_succ, h.edge]
  cases hr : (s t).readyM (inp t)
  · rw [Datapath.idxE_edge_of_not_readyM (h.rst t) (h.inv t) hr, Datapath.leavesE, hr, Bool.and_false]
    rfl
  · rw [Datapath.idxE_edge_of_readyM (h.rst t) (h.inv t) hr, Datapath.leavesE, hr, Bool.and_true,
      Datapath.idxD]

/-- The instructions that have left E are those before the one in it. -/
theorem countOf_leavesE (t : ℕ) :
    countOf (fun u => (s u).leavesE (inp u)) t = (s t).idxE (retired s t) := by
  induction t with
  | zero =>
    rw [Datapath.idxE, Datapath.idxM, Datapath.occM, h.reset.ctl]
    rfl
  | succ t ih => rw [countOf_succ, ih, h.idxE_succ]

/-- The instructions that have entered E are those that have written back and those in flight. -/
theorem countOf_leavesD (t : ℕ) :
    countOf (fun u => (s u).leavesD (inp u)) t = retired s t + (s t).inFlight := by
  have hidx : countOf (fun u => (s u).leavesD (inp u)) t = (s t).idxD (retired s t) := by
    induction t with
    | zero =>
      rw [Datapath.idxD, Datapath.idxE, Datapath.idxM, Datapath.occM, h.reset.ctl]
      rfl
    | succ t ih => rw [countOf_succ, ih, h.idxD_succ]
  rw [hidx, Datapath.idxD, Datapath.idxE, Datapath.idxM, Datapath.inFlight]
  omega

/-- Every flush is paid for by a refill but for the last one, and so is the start. -/
theorem countOf_refills (t : ℕ) :
    countOf (fun u => (s u).refills (inp u)) t + (s t).refillOwed.toNat =
      countOf (fun u => (s u).flushes (inp u)) t + 1 := by
  induction t with
  | zero =>
    rw [Datapath.refillOwed, h.reset.ctl]
    rfl
  | succ t ih =>
    have hstep := (h.inv t).refillOwed_edge (l := look t) (h.rst t)
    rw [← h.edge] at hstep
    rw [countOf_succ, countOf_succ]
    omega

/-- In every run of the core, whatever the words on the buses, the timing of the responses, and the
answers of the branch predictor: the cycles before `t`, and one that a refill may still owe, are as
many as the instructions that have entered E, the cycles in which M waits, the stalls on a load,
twice the flushes, and one. -/
theorem cycles_eq (t : ℕ) :
    t + (s t).refillOwed.toNat =
      retired s t + (s t).inFlight + countOf (fun u => (s u).waits (inp u)) t +
        countOf (fun u => (s u).stalls (inp u)) t +
        2 * countOf (fun u => (s u).flushes (inp u)) t + 1 := by
  have hkinds : ∀ t, countOf (fun u => (s u).leavesD (inp u)) t +
      countOf (fun u => (s u).waits (inp u)) t + countOf (fun u => (s u).stalls (inp u)) t +
      countOf (fun u => (s u).flushes (inp u)) t + countOf (fun u => (s u).refills (inp u)) t = t := by
    intro t
    induction t with
    | zero => rfl
    | succ t ih =>
      have hk := (s t).kinds (inp t)
      simp only [countOf_succ]
      omega
  have hsum := hkinds t
  have hissued := h.countOf_leavesD t
  have hrefill := h.countOf_refills t
  omega

end CoreRun

/-! ## The cycles of a program -/

/-- Instruction `n` of the program in `mem` is a load, and the next one reads its destination. -/
def loadUsePair (mem : Memories) (n : ℕ) : Bool :=
  let a := controlD (seq mem n).instr
  let w := (seq mem (n + 1)).instr
  a.memReadE &&
    (RawDetect.conflict (mulcuDecoder w).rs1 a.rdE a.typeE ||
      (!RawDetect.noRs2 (immeDecoder w).type &&
        RawDetect.conflict (mulcuDecoder w).rs2 a.rdE a.typeE))

/-- Instruction `n`, if it is predicted as given, does not go on as predicted; an `mret` never
does. -/
def mispredicted (mem : Memories) (n : ℕ) (predict : Bool) : Bool :=
  let a := seq mem n
  (predict ^^ a.de.jumpSign a.de.rdata1E a.de.rdata2E) || a.de.mretE

section Events

variable {mem : Memories} {c : ℕ} {s : Datapath} {m : Memories} {i : DatapathIn}

/-- An instruction that leaves E flushes D if it was mispredicted. -/
theorem Sim.flushes_eq (h : Sim (seqRun mem) c s m) :
    s.flushes i = (s.leavesE i && mispredicted mem (s.idxE c) s.de.predictE) := by
  rw [Datapath.flushes, Datapath.leavesE, Datapath.preWrongValid]
  cases hv : s.ctl.validE
  · simp
  · have hex := h.ex hv
    have hmret : s.de.mretE = (seq mem (s.idxE c)).de.mretE :=
      congrArg ControlE.mretE hex.control
    have hjump : s.de.jumpSign s.src1E s.src2 = _ := hex.jumpSign
    rw [Datapath.preWrong, BufferDE.preWrong, hjump, hmret, seqRun_state, mispredicted, Bool.and_true,
      Bool.true_and]

/-- A load in E does not flush D. -/
theorem FrontEnd.preWrongValid_of_load {k : Code} (h : FrontEnd k s) (hv : s.ctl.validE = true)
    {w : Word} (hcontrol : s.de.toControlE = controlD w) (hl : (controlD w).memReadE = true) :
    s.preWrongValid = false := by
  have hpred : s.de.predictE = false := by
    by_contra hp
    have hd := (other_of_isDirectJump (h.directE hv (by simpa using hp))).1
    rw [← h.control hv, hcontrol, hl] at hd
    contradiction
  obtain ⟨-, hjal, hjalr, hb, hmret, -⟩ := other_of_memReadE hl
  rw [← hcontrol] at hjal hjalr hb hmret
  simp [Datapath.preWrongValid, Datapath.preWrong, BufferDE.preWrong, BufferDE.jumpSign, hjal, hjalr,
    hb, hmret, hpred]

/-- An instruction that leaves E stalls D if it is a load and the next one reads its destination. -/
theorem Sim.stalls_eq {k : Code} (h : Sim (seqRun mem) c s m) (hfront : FrontEnd k s) :
    s.stalls i = (s.leavesE i && loadUsePair mem (s.idxE c)) := by
  rw [Datapath.stalls, Datapath.leavesE]
  cases hr : s.readyM i
  · simp
  · rw [Datapath.stallD_of_readyM hr]
    cases hv : s.ctl.validE
    · simp
    · have hcontrol := (h.ex hv).control
      rw [seqRun_state] at hcontrol
      cases hp : s.preWrongValid
      · -- The word in D is the next instruction.
        have hvD := h.inv.validDReg_of_validE hp hv
        have hidx : s.idxD c = s.idxE c + 1 := by rw [Datapath.idxD, hv, Bool.toNat_true]
        have hinstr := (h.fd hvD hp).2
        rw [seqRun_state, hidx] at hinstr
        rw [hvD, Datapath.loadUse, hinstr, hcontrol, loadUsePair]
        rfl
      · have hload : (controlD (seq mem (s.idxE c)).instr).memReadE = false := by
          by_contra hl
          rw [hfront.preWrongValid_of_load hv hcontrol (by simpa using hl)] at hp
          contradiction
        rw [loadUsePair, hload]
        simp

end Events

/-- Over a hazard-free program, whatever the timing of the responses: of the instructions that have
left E, those that load what the next one reads have cost a cycle, those that were mispredicted have
cost two, and every other cycle belongs to an instruction, to a wait for a response, or to the
start. The prediction of an instruction is the one that it leaves E with. -/
theorem cycles_eq_of_program {inp : ℕ → DatapathIn} {look : ℕ → Lookup} {s : ℕ → Datapath}
    {m : ℕ → Memories} (hprog : HazardFree (seq (m 0))) (hrun : MemRun inp look s m)
    (hlook : ∀ t, (look t).btbHitF = true → look t = (s t).lookup) (t : ℕ) :
    let left := Nat.nth fun u => (s u).leavesE (inp u) = true
    let n := (s t).idxE (retired s t)
    t + (s t).refillOwed.toNat =
      retired s t + (s t).inFlight + countOf (fun u => (s u).waits (inp u)) t +
        countOf (loadUsePair (m 0)) n +
        2 * countOf (fun k => mispredicted (m 0) k (s (left k)).de.predictE) n + 1 := by
  intro left n
  have hsim (u : ℕ) := (hprog.run hrun hlook u).1
  have hleft (u : ℕ) := hrun.toCoreRun.countOf_leavesE u
  have hstalls : countOf (fun u => (s u).stalls (inp u)) t = countOf (loadUsePair (m 0)) n := by
    rw [show n = _ from (hleft t).symm]
    refine countOf_follow (fun u => ?_) t
    rw [hleft]
    exact (hsim u).stalls_eq (hprog.run hrun hlook u).2
  have hflushes : countOf (fun u => (s u).flushes (inp u)) t =
      countOf (fun k => mispredicted (m 0) k (s (left k)).de.predictE) n := by
    rw [show n = _ from (hleft t).symm]
    refine countOf_follow (fun u => ?_) t
    rw [(hsim u).flushes_eq]
    cases hl : (s u).leavesE (inp u)
    · rfl
    · -- The instruction leaves E in this cycle.
      have hu : left (countOf (fun u => (s u).leavesE (inp u)) u) = u := Nat.nth_count hl
      rw [hu, hleft]
  rw [← hstalls, ← hflushes]
  exact hrun.toCoreRun.cycles_eq t

/-- The first cycles of the loop of stores, with every response in its first cycle. -/
theorem cycles_eq_of_program_storeLoop :
    let s := fun u => (storeLoopRun u).core
    let inp := fun u => (storeLoopRun u).input ⟨true, 0#32, 0#32⟩
    let left := Nat.nth fun u => (s u).leavesE (inp u) = true
    let t := 20
    let n := (s t).idxE (retired s t)
    t + (s t).refillOwed.toNat =
      retired s t + (s t).inFlight + countOf (fun u => (s u).waits (inp u)) t +
        countOf (loadUsePair storeLoop) n +
        2 * countOf (fun k => mispredicted storeLoop k (s (left k)).de.predictE) n + 1 := by
  intro s inp left t n
  exact cycles_eq_of_program (m := fun u => (storeLoopRun u).mem) storeLoop_baseProgram.hazardFree
    (System.memRun_step ⟨Datapath.reset, storeLoop⟩ _ Datapath.afterReset_reset) (fun _ _ => rfl) t

end RV32Pipeline
