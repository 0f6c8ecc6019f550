import RV32Pipeline.Pipeline.Prediction
import RV32Pipeline.Pipeline.SimulationStep

/-!
# Programs that the pipeline executes

`HazardFree` is a condition on the path of a program on the sequential machine: the decoder knows
every instruction, jumps go to aligned addresses, the code is not overwritten, and a `csrrw` or
`csrrs` stands far enough before the instructions that read its register or its CSR. Along every run
over such a program, with any timing of the responses, the pipeline simulates the sequential
machine. The simulation and the front end invariant are proved together (`HazardFree.run`), since
each needs the other at every edge. `BaseProgram` is the special case without system instructions.
-/

namespace RV32Pipeline

/-! ## Instruction words -/

/-- The word is an integer, load, store, branch, `jal`, `jalr`, `lui`, or `auipc` instruction. -/
def isBase (w : Word) : Bool :=
  let opcode := (mulcuDecoder w).opcode
  opcode == Opcode.rType || opcode == Opcode.iType || opcode == Opcode.load ||
    opcode == Opcode.store || opcode == Opcode.bType || opcode == Opcode.jal ||
    opcode == Opcode.jalr || opcode == Opcode.lui || opcode == Opcode.auipc

/-- The decoder knows the opcode of the word. -/
def isKnown (w : Word) : Bool := isBase w || (mulcuDecoder w).opcode == Opcode.csr

/-- The word is a conditional branch, a `jal`, or a `jalr`. -/
def isJump (w : Word) : Bool := isDirectJump w || (mulcuDecoder w).jalr

/-- The instruction reads register `r`. -/
def readsReg (w : Word) (r : BitVec 5) : Bool :=
  ((controlD w).readsRs1 && (mulcuDecoder w).rs1 == r) ||
    ((controlD w).readsRs2 && (mulcuDecoder w).rs2 == r)

/-- An instruction that the decoder knows writes its register, if its format has one. -/
theorem regWriteE_of_isKnown {w : Word} (h : isKnown w = true)
    (hd : RawDetect.noRd (controlD w).typeE = false) : (controlD w).regWriteE = true := by
  simp only [isKnown, isBase, controlD, mulcuDecoder, immeDecoder, RawDetect.noRd] at *
  generalize w.extractLsb' 0 7 = op at *
  generalize w.extractLsb' 12 3 = f3 at *
  revert op f3
  decide

/-- A base instruction reads and writes no CSR. -/
theorem not_system_of_isBase {w : Word} (h : isBase w = true) :
    (controlD w).isCsr = false ∧ (controlD w).mretE = false := by
  have hop : (w.extractLsb' 0 7 == Opcode.csr) = false := by
    simp only [isBase, mulcuDecoder] at h
    generalize w.extractLsb' 0 7 = op at *
    revert op
    decide
  simp [controlD, mulcuDecoder, ControlE.isCsr, hop]

/-! ## Conditions on the path of a program -/

section Path

variable (σ : ℕ → Arch)

instance (b : BufferEM) (p : Word) :
    Decidable (∀ w ∈ b.write, ¬ ByteMem.Overlaps w.1 w.2.2 p) := Option.decidableForallMem _

/-- No store of the sequential machine writes a byte of a word that it executes. -/
def CodeFixed : Prop :=
  ∀ n k, ∀ w ∈ (σ n).em.write, ¬ ByteMem.Overlaps w.1 w.2.2 (σ k).pc

/-- The decoder knows every instruction on the path of the program, and none comes so soon after a
`csrrw` or `csrrs` that it could miss its result. -/
structure NoHazard : Prop where
  known : ∀ n, isKnown (σ n).instr = true
  reg : ∀ n k, k < 2 → (controlD (σ n).instr).isCsr = true →
    readsReg (σ (n + k + 1)).instr (controlD (σ n).instr).rdE = true →
    (controlD (σ n).instr).rdE = 0#5
  csr : ∀ n k, k < 3 → (controlD (σ n).instr).isCsr = true →
    (controlD (σ (n + k + 1)).instr).readsCsr = true →
    Csr.idx (controlD (σ n).instr).csrWaddrE ≠ Csr.idx (mulcuDecoder (σ (n + k + 1)).instr).csrRaddr

/-- The jumps on the path of the program go to aligned addresses, and the program does not overwrite
its code. -/
structure HazardFree : Prop extends NoHazard σ where
  aligned : ∀ n, Aligned (σ n).pc
  target : ∀ n, isDirectJump (σ n).instr = true → Aligned (directTarget (σ n).pc (σ n).instr)
  fixed : CodeFixed σ

variable {σ}

/-- Without system instructions there is no CSR to miss. -/
theorem NoHazard.of_isBase (h : ∀ n, isBase (σ n).instr = true) : NoHazard σ where
  known n := by rw [isKnown, h n]; rfl
  reg n _ _ hc _ := by
    rw [(not_system_of_isBase (h n)).1] at hc
    contradiction
  csr n _ _ hc _ := by
    rw [(not_system_of_isBase (h n)).1] at hc
    contradiction

end Path

/-- The program in `mem` has no system instruction on its path, its jumps go to aligned addresses,
and it does not overwrite its code. -/
structure BaseProgram (mem : Memories) : Prop where
  base : ∀ n, isBase (seq mem n).instr = true
  aligned : ∀ n, isJump (seq mem n).instr = true → Aligned (seq mem n).target
  fixed : CodeFixed (seq mem)

namespace CodeFixed

variable {σ : SeqRun} (h : CodeFixed σ)
include h

/-- A program that does not overwrite its code executes the words that it was loaded with. -/
theorem fetch (n k : ℕ) : (σ n).mem.fetch (σ k).pc = (σ 0).mem.fetch (σ k).pc := by
  induction n with
  | zero => rfl
  | succ n ih =>
    rw [σ.step, ← ih]
    exact Arch.fetch_next _ (h n k)

/-- Such a program is coherent at any distance between a store and a fetch. -/
theorem coherent : Coherent σ :=
  fun n k _ => (h.fetch n (n + k)).trans (h.fetch (n + k) (n + k)).symm

end CodeFixed

/-- A program that comes to a `j 0` is hazard-free if it is so up to there. -/
theorem HazardFree.of_j0 {σ : SeqRun} {e : ℕ} (hj : (σ e).instr = 0x6f#32)
    (hknown : ∀ n < e, isKnown (σ n).instr = true)
    (hreg : ∀ n < e, ∀ k < 2, (controlD (σ n).instr).isCsr = true →
      readsReg (σ (n + k + 1)).instr (controlD (σ n).instr).rdE = true →
      (controlD (σ n).instr).rdE = 0#5)
    (hcsr : ∀ n < e, ∀ k < 3, (controlD (σ n).instr).isCsr = true →
      (controlD (σ (n + k + 1)).instr).readsCsr = true →
      Csr.idx (controlD (σ n).instr).csrWaddrE ≠
        Csr.idx (mulcuDecoder (σ (n + k + 1)).instr).csrRaddr)
    (haligned : ∀ n ≤ e, Aligned (σ n).pc)
    (htarget : ∀ n < e, isDirectJump (σ n).instr = true →
      Aligned (directTarget (σ n).pc (σ n).instr))
    (hfixed : ∀ n < e, ∀ k ≤ e, ∀ w ∈ (σ n).em.write, ¬ ByteMem.Overlaps w.1 w.2.2 (σ k).pc) :
    HazardFree σ where
  known n := by
    rcases Nat.lt_or_ge n e with hn | hn
    · exact hknown n hn
    · rw [(SeqRun.of_j0 hj hn).2.2.1]
      decide
  reg n k hk hc := by
    rcases Nat.lt_or_ge n e with hn | hn
    · exact hreg n hn k hk hc
    · rw [(SeqRun.of_j0 hj hn).2.2.1] at hc
      contradiction
  csr n k hk hc := by
    rcases Nat.lt_or_ge n e with hn | hn
    · exact hcsr n hn k hk hc
    · rw [(SeqRun.of_j0 hj hn).2.2.1] at hc
      contradiction
  aligned n := by
    rcases Nat.le_total n e with hn | hn
    · exact haligned n hn
    · rw [(SeqRun.of_j0 hj hn).1]
      exact haligned e le_rfl
  target n hd := by
    rcases Nat.lt_or_ge n e with hn | hn
    · exact htarget n hn hd
    · obtain ⟨hpc, -, hi, -⟩ := SeqRun.of_j0 hj hn
      rw [hpc, hi, show directTarget (σ e).pc 0x6f#32 = (σ e).pc from BitVec.add_zero _]
      exact haligned e le_rfl
  fixed n k w hw := by
    rcases Nat.lt_or_ge n e with hn | hn
    · rcases Nat.le_total k e with hk | hk
      · exact hfixed n hn k hk w hw
      · rw [(SeqRun.of_j0 hj hk).1]
        exact hfixed n hn e le_rfl w hw
    · rw [(SeqRun.of_j0 hj hn).2.2.2] at hw
      contradiction

namespace BaseProgram

variable {mem : Memories} (h : BaseProgram mem)
include h

/-- The path of the program has aligned addresses only. -/
theorem aligned_pc (n : ℕ) : Aligned (seq mem n).pc := by
  induction n with
  | zero => exact (by decide : Aligned pcRst)
  | succ n ih =>
    have hde : (seq mem n).de.mretE = false := (not_system_of_isBase (h.base n)).2
    change Aligned ((seq mem n).de.pcCorrectionPath _ _)
    simp only [BufferDE.pcCorrectionPath, hde, Bool.false_eq_true, if_false]
    split_ifs with hj
    · refine h.aligned n ?_
      simp only [BufferDE.jumpSign, Bool.or_eq_true, Bool.and_eq_true] at hj
      simp only [isJump, isDirectJump, Bool.or_eq_true]
      rcases hj with (hj | hj) | hj
      · exact .inr hj
      · exact .inl (.inr hj)
      · exact .inl (.inl hj.1)
    · exact ih.add_four

/-- The program has no hazard. -/
theorem hazardFree : HazardFree (seq mem) where
  toNoHazard := NoHazard.of_isBase h.base
  aligned := h.aligned_pc
  target n hd := by
    have ht := h.aligned n (by rw [isJump, hd]; rfl)
    have hj : (seq mem n).de.jalrE = false := (other_of_isDirectJump hd).2.2
    rw [Arch.target, BufferDE.jumpTarget, hj] at ht
    exact ht
  fixed := h.fixed

end BaseProgram

/-! ## Runs -/

namespace NoHazard

section Stage

variable {σ : SeqRun} (h : NoHazard σ) {c : ℕ} {s : Datapath} {m : Memories} {i : DatapathIn}
  (hsim : Sim σ c s m)
include h hsim

/-- What is selected for a register that D reads writes it. -/
theorem forwardSafe {rs : BitVec 5} (hrs : readsReg (σ (s.idxD c)).instr rs = true) :
    s.ForwardSafe i rs := by
  constructor
  · intro hs
    simp only [Datapath.selE, Bool.and_eq_true, Datapath.conflict_iff] at hs
    obtain ⟨hv, rfl, hne, hd⟩ := hs
    have hc := (hsim.ex hv).control
    -- The reader is one instruction behind the one in E.
    have hidx : s.idxD c = s.idxE c + 0 + 1 := by rw [Datapath.idxD, hv]; rfl
    rw [hc] at hd hne hrs ⊢
    refine ⟨regWriteE_of_isKnown (h.known _) hd, Bool.eq_false_iff.mpr fun hcsr => hne ?_⟩
    rw [hidx] at hrs
    exact h.reg _ 0 (by decide) hcsr hrs
  · rintro - hs
    simp only [Datapath.selM, Bool.and_eq_true, Datapath.conflict_iff] at hs
    obtain ⟨hv, rfl, hne, hd⟩ := hs
    have ho := Datapath.occM_of_validM hv
    have hc := (hsim.mm ho).control
    -- The reader is one or two instructions behind the one in M.
    have hidx : s.idxD c = s.idxM c + s.ctl.validE.toNat + 1 := by
      rw [Datapath.idxD, Datapath.idxE, ho, Bool.toNat_true]; omega
    rw [hc] at hd hne hrs ⊢
    refine ⟨regWriteE_of_isKnown (h.known _) hd, ?_⟩
    by_contra hcsr
    rw [hidx] at hrs
    exact hne (h.reg _ _ (by have := Bool.toNat_le s.ctl.validE; omega) (bne_iff_ne.mpr hcsr) hrs)
  · rintro - - hs
    simp only [Datapath.selW, Bool.and_eq_true, Datapath.conflict_iff] at hs
    obtain ⟨hv, -, -, hd⟩ := hs
    have hc := (hsim.wb hv).control
    rw [hc] at hd ⊢
    exact regWriteE_of_isKnown (h.known _) hd

/-- A CSR that D reads is not written by an instruction in flight. -/
theorem csrSafe (hr : (controlD (σ (s.idxD c)).instr).readsCsr = true)
    (hinstr : s.fd.instrD = (σ (s.idxD c)).instr) : s.CsrSafe := by
  -- The reader is at most three instructions behind the writer.
  have hE := Bool.toNat_le s.ctl.validE
  have hM := Bool.toNat_le s.occM
  constructor
  · intro hv hcsr
    have hc := (hsim.ex hv).control
    have hidx : s.idxD c = s.idxE c + 0 + 1 := by rw [Datapath.idxD, hv]; rfl
    rw [hc] at hcsr ⊢
    rw [hidx] at hr
    rw [hinstr, hidx]
    exact h.csr _ 0 (by decide) hcsr hr
  · intro ho hcsr
    have hc := (hsim.mm ho).control
    have hidx : s.idxD c = s.idxM c + s.ctl.validE.toNat + 1 := by
      rw [Datapath.idxD, Datapath.idxE, ho, Bool.toNat_true]; omega
    rw [hc] at hcsr ⊢
    rw [hidx] at hr
    rw [hinstr, hidx]
    exact h.csr _ _ (by omega) (bne_iff_ne.mpr hcsr) hr
  · intro hv hcsr
    have hc := (hsim.wb hv).control
    have hidx : s.idxD c = c + (s.occM.toNat + s.ctl.validE.toNat) + 1 := by
      rw [Datapath.idxD, Datapath.idxE, Datapath.idxM, hv, Bool.toNat_true]; omega
    rw [BufferMW.csrWenW, hc] at hcsr
    rw [hc]
    rw [hidx] at hr
    rw [hinstr, hidx]
    exact h.csr _ _ (by omega) hcsr hr

/-- What leaves D reads nothing that it would miss. -/
theorem readsOk : s.ReadsOk i := by
  refine ⟨⟨?_, ?_⟩, ?_⟩
  · intro hD hr
    rw [(hsim.fd_of_leavesD hD).2] at hr ⊢
    exact h.forwardSafe hsim (by simp [readsReg, hr])
  · intro hD hr
    rw [(hsim.fd_of_leavesD hD).2] at hr ⊢
    exact h.forwardSafe hsim (by simp [readsReg, hr])
  · intro hD hr
    have hinstr := (hsim.fd_of_leavesD hD).2
    rw [hinstr] at hr
    exact h.csrSafe hsim hr hinstr

end Stage

/-- Along a run over a program without hazards the pipeline simulates the sequential machine, if the
predictions are right. -/
theorem run_sim {inp : ℕ → DatapathIn} {look : ℕ → Lookup} {s : ℕ → Datapath} {m : ℕ → Memories}
    (h : NoHazard (seq (m 0))) (hrun : MemRun inp look s m) (hco : Coherent (seq (m 0)))
    (hredirect : ∀ t, (s t).RedirectOk (inp t)) (htarget : ∀ t, (s t).TargetOk) (t : ℕ) :
    Sim (seqRun (m 0)) (retired s t) (s t) (m t) := by
  induction t with
  | zero => exact Sim.afterReset hrun.reset rfl
  | succ t ih =>
    exact ih.run_succ hrun hco (hredirect t) (NoHazard.readsOk (σ := seqRun (m 0)) h ih)
      (htarget (t + 1))

end NoHazard

namespace HazardFree

variable {σ : SeqRun} (h : HazardFree σ)
include h

/-- The code of the program. -/
def code : Code where
  path p := ∃ n, (σ n).pc = p
  word := (σ 0).mem.fetch
  aligned := by
    rintro _ ⟨n, rfl⟩
    exact h.aligned n
  target := by
    rintro _ ⟨n, rfl⟩ hd
    rw [← h.fixed.fetch n n] at hd ⊢
    exact h.target n hd

/-- A clock edge continues the simulation of a hazard-free program, and its front end follows the
code. -/
theorem edge {c : ℕ} {s : Datapath} {m : Memories} {i : DatapathIn} {l : Lookup}
    (hsim : Sim σ c s m) (hfront : FrontEnd h.code s) (hrst : i.rst = false)
    (hfetch : s.readyD i = true → i.instAxiRdata = m.fetch s.pcRegF)
    (hans : Answers σ c s i) (hl : l.btbHitF = true → l = s.lookup) :
    Sim σ (s.idxM c) (s.edge i l) (m.commit s.em) ∧ FrontEnd h.code (s.edge i l) := by
  have hex := fun hv => hsim.ex_edge (l := l) hrst hans (h.readsOk hsim) hv
  -- The front end goes first: at the next edge the simulation needs the targets that it predicts.
  have hfront' : FrontEnd h.code (s.edge i l) := by
    refine hfront.edge hrst hsim.inv (fun hv => ⟨_, (hex hv).pc.symm⟩) ?_ hl fun hp => ?_
    · rintro hready ⟨n, hn⟩
      rw [hfetch hready, ← hn, hsim.mem, h.fixed.fetch]
      rfl
    · rw [Datapath.preWrongValid, Bool.and_eq_true] at hp
      rw [(hsim.ex hp.2).pcCorrectionPath (σ.rdata _), ← σ.step]
      exact h.aligned (_ + 1)
  exact ⟨hsim.edge (h.fixed.coherent _) hrst hfetch hans (hfront.redirectOk hsim.inv)
    (h.readsOk hsim) (hfront'.targetOk (hsim.inv.edge hrst)), hfront'⟩

end HazardFree

section Run

variable {inp : ℕ → DatapathIn} {look : ℕ → Lookup} {s : ℕ → Datapath} {m : ℕ → Memories}
  (h : HazardFree (seq (m 0))) (hrun : MemRun inp look s m)
  (hlook : ∀ t, (look t).btbHitF = true → look t = (s t).lookup)
include hrun hlook

/-- Along a run over a hazard-free program the pipeline simulates the sequential machine, and the
front end follows the code. -/
theorem HazardFree.run (t : ℕ) :
    Sim (seqRun (m 0)) (retired s t) (s t) (m t) ∧
      FrontEnd (HazardFree.code (σ := seqRun (m 0)) h) (s t) := by
  induction t with
  | zero => exact ⟨Sim.afterReset hrun.reset rfl, FrontEnd.afterReset hrun.reset⟩
  | succ t ih =>
    obtain ⟨hsim, hfront⟩ := ih
    rw [retired_succ, hrun.edge, hrun.commit]
    exact HazardFree.edge (σ := seqRun (m 0)) h hsim hfront (hrun.rst t) (hrun.fetch t)
      (hsim.answers (hrun.load t)) (hlook t)

include h in
/-- A run over a hazard-free program meets the conditions of the simulation at every edge. -/
theorem HazardFree.runOk : RunOk s inp where
  redirect t := (h.run hrun hlook t).2.redirectOk (h.run hrun hlook t).1.inv
  target t := (h.run hrun hlook t).2.targetOk (h.run hrun hlook t).1.inv
  reads t := NoHazard.readsOk (σ := seqRun (m 0)) h.toNoHazard (h.run hrun hlook t).1

end Run

end RV32Pipeline
