import RV32Pipeline.Machine.Npc
import RV32Pipeline.Pipeline.InFlight

/-!
# The parity of the fetch PC

The PC in F comes from the predicted path (`PC + 4`, or a target in the branch target buffer) or
from the corrected one (`PC_jump`, `PC_jalr`, `mepc`, or `PC + 4`). Immediates of `jal` and of the
branches are even, so every source keeps bit 0 at 0 except two: `PC_jalr` is the plain sum of the
immediate and `rs1`, and `mepc` is a plain register. `EvenPcs` is the invariant: besides the PC in F
it covers the PCs in D and E, valid or not, and the targets in the buffer. It is kept by every edge
that does not redirect to an odd sum or to an odd `mepc`.
-/

namespace RV32Pipeline

/-- Bit 0 of the word is 0. -/
def IsEven (w : Word) : Prop := w.getLsbD 0 = false

instance (w : Word) : Decidable (IsEven w) := by unfold IsEven; infer_instance

namespace IsEven

/-- Bit 0 of a sum has no carry. -/
theorem getLsbD_zero_add (x y : Word) : (x + y).getLsbD 0 = (x.getLsbD 0 ^^ y.getLsbD 0) := by
  rw [BitVec.getLsbD_add (by decide), BitVec.carry_zero, Bool.xor_false]

/-- A sum of words of the same parity is even, and no other. -/
theorem add_iff (x y : Word) : IsEven (x + y) ↔ x.getLsbD 0 = y.getLsbD 0 := by
  unfold IsEven
  rw [getLsbD_zero_add]
  rcases Bool.eq_false_or_eq_true (x.getLsbD 0) with hx | hx <;> rw [hx] <;> simp

theorem add {x y : Word} (hx : IsEven x) (hy : IsEven y) : IsEven (x + y) :=
  (add_iff x y).mpr (hx.trans hy.symm)

theorem add_four {x : Word} (hx : IsEven x) : IsEven (x + 4#32) := hx.add (by decide)

/-- An immediate that ends in a 0 is even. -/
theorem signExtend_append_zero {n : ℕ} (x : BitVec n) :
    IsEven ((x ++ 0#1 : BitVec (n + 1)).signExtend 32) := by
  unfold IsEven
  rw [BitVec.getLsbD_signExtend, BitVec.getLsbD_append]
  simp

/-- The immediate of a `jal` or of a branch is even. -/
theorem imme {w : Word} (h : (mulcuDecoder w).branch = true ∨ (mulcuDecoder w).jal = true) :
    IsEven (immeDecoder w).imme := by
  have hop : w.extractLsb' 0 7 = Opcode.bType ∨ w.extractLsb' 0 7 = Opcode.jal := by
    simp only [mulcuDecoder] at h
    generalize w.extractLsb' 0 7 = op at *
    generalize w.extractLsb' 12 3 = f3 at *
    revert op f3
    decide
  rcases hop with hop | hop
  · have himme : (immeDecoder w).imme = (w.extractLsb' 31 1 ++ w.extractLsb' 7 1 ++
        w.extractLsb' 25 6 ++ w.extractLsb' 8 4 ++ 0#1).signExtend 32 := by
      unfold immeDecoder
      rw [hop]
      rfl
    rw [himme]
    exact signExtend_append_zero _
  · have himme : (immeDecoder w).imme = (w.extractLsb' 31 1 ++ w.extractLsb' 12 8 ++
        w.extractLsb' 20 1 ++ w.extractLsb' 21 10 ++ 0#1).signExtend 32 := by
      unfold immeDecoder
      rw [hop]
      rfl
    rw [himme]
    exact signExtend_append_zero _

end IsEven

/-- A `jalr` adds `rs1`, and it is no `mret`. -/
theorem jalr_controls {w : Word} (h : (controlD w).jalrE = true) :
    (controlD w).regRenE = true ∧ (controlD w).auipcE = false ∧ (controlD w).mretE = false := by
  have hop : w.extractLsb' 0 7 = Opcode.jalr := beq_iff_eq.mp h
  unfold controlD mulcuDecoder
  rw [hop]
  exact ⟨rfl, rfl, rfl⟩

namespace Datapath

variable (s : Datapath) (i : DatapathIn)

/-- F is redirected to the outcome of the instruction in E at the next edge. -/
def redirects : Bool := s.preWrongValid && s.readyD i

/-- The instruction in E does not redirect F to an odd address: the base register of a `jalr` has
the parity of its immediate, and the `mepc` that an `mret` read is even. -/
def EvenTarget : Prop :=
  s.redirects i = true →
    (s.de.jalrE = true → s.de.immeE.getLsbD 0 = s.src1E.getLsbD 0) ∧
      (s.de.mretE = true → s.de.csrRdataE.getLsbD 0 = false)

/-- The PCs in the front end and the targets in the branch target buffer are even. -/
structure EvenPcs (s : Datapath) : Prop where
  pcRegF : IsEven s.pcRegF
  pcRegD : IsEven s.fd.pcRegD
  pcRegE : IsEven s.de.pcRegE
  btbTargets : ∀ k, (s.btb.btbTargets k).getLsbD 0 = false

variable {s i}

/-- Reset leaves the reset PC in every stage, and no target in the buffer. -/
theorem AfterReset.evenPcs (h : s.AfterReset) : s.EvenPcs := by
  obtain ⟨p, i, l, hi, rfl⟩ := h
  constructor
  · show IsEven (pcNext i.rst (p.readyD i) (p.pcSrc i l) p.pcRegF)
    rw [hi]
    exact (by decide : IsEven pcRst)
  · show IsEven (bufferNext i.rst _ BufferFD.reset (p.fdIn i l) p.fd).pcRegD
    rw [hi]
    exact (by decide : IsEven pcRst)
  · show IsEven (bufferNext i.rst _ p.de.reset p.deIn p.de).pcRegE
    rw [hi]
    exact (by decide : IsEven pcRst)
  · intro k
    show ((p.btb.next i.rst _ _ _).btbTargets k).getLsbD 0 = false
    rw [hi]
    exact BitVec.getLsbD_zero

namespace EvenPcs

variable (h : s.EvenPcs)
include h

/-- What the branch target buffer answers is even. -/
theorem lookup : s.lookup.btbTargetAddr.getLsbD 0 = false := by
  show (if s.btb.hit s.pcRegF then s.btb.btbTargets (Btb.index s.pcRegF) else 0#33).getLsbD 0 = false
  split_ifs
  · exact h.btbTargets _
  · rfl

/-- The predicted path is even. -/
theorem pcPredictPath : IsEven (s.pcPredictPath i s.lookup) := by
  unfold Datapath.pcPredictPath
  split_ifs
  · unfold IsEven
    rw [BitVec.getLsbD_setWidth, h.lookup]
    rfl
  · exact h.pcRegF.add_four

/-- The target that D stores in the buffer is even. -/
theorem btbUpdateTarget (hu : s.btbUpdate i = true) : s.btbUpdateTarget.getLsbD 0 = false := by
  unfold Datapath.btbUpdate at hu
  rw [Bool.and_eq_true, Bool.and_eq_true, Bool.or_eq_true] at hu
  have ht : IsEven s.branchTarget := h.pcRegD.add (IsEven.imme hu.1.1)
  unfold Datapath.btbUpdateTarget
  rw [BitVec.getLsbD_append]
  exact ht

/-- The corrected path is even unless it is the odd sum of a `jalr`, or an odd `mepc`. -/
theorem pcCorrectionPath_iff (hs : s.Inv) (hv : s.ctl.validE = true) :
    IsEven s.pcCorrectionPath ↔
      (s.de.jalrE = true → s.de.immeE.getLsbD 0 = s.src1E.getLsbD 0) ∧
        (s.de.mretE = true → s.de.csrRdataE.getLsbD 0 = false) := by
  have hc := hs.controlE hv
  -- A `jalr` reads a register for the base, and is no `mret`.
  have hjalr : s.de.jalrE = true → s.de.regRenE = true ∧ s.de.auipcE = false ∧ s.de.mretE = false := by
    rw [hc]
    exact jalr_controls
  unfold Datapath.pcCorrectionPath BufferDE.pcCorrectionPath
  rcases Bool.eq_false_or_eq_true s.de.mretE with hm | hm
  · -- An `mret` goes to the word that it read.
    have hj : s.de.jalrE = false := by
      by_contra hj
      rw [Bool.not_eq_false] at hj
      rw [(hjalr hj).2.2] at hm
      exact Bool.noConfusion hm
    rw [hm, hj, if_pos rfl]
    unfold IsEven
    simp
  · rw [hm, if_neg Bool.false_ne_true]
    rcases Bool.eq_false_or_eq_true s.de.jalrE with hj | hj
    · -- A `jalr` goes to the sum.
      obtain ⟨hr, ha, -⟩ := hjalr hj
      have ht : s.de.jumpSign s.src1E s.src2 = true := by
        unfold BufferDE.jumpSign
        rw [hj]
        rfl
      have ht' : s.de.jumpTarget s.src1E = s.de.immeE + s.src1E := by
        unfold BufferDE.jumpTarget BufferDE.pcJalr BufferDE.aluDA
        rw [hj, hr, ha]
        rfl
      rw [ht, if_pos rfl, ht', IsEven.add_iff, hj]
      simp
    · -- Any other target is even.
      rw [hj]
      simp only [Bool.false_eq_true, false_implies, and_self, iff_true]
      split_ifs with hjump
      · have hjt : s.de.jumpTarget s.src1E = s.de.pcRegE + s.de.immeE := by
          unfold BufferDE.jumpTarget
          rw [hj]
          rfl
        rw [hjt]
        apply h.pcRegE.add
        unfold BufferDE.jumpSign at hjump
        rw [hj, Bool.false_or, Bool.or_eq_true, Bool.and_eq_true, hc] at hjump
        rw [hc]
        exact IsEven.imme (hjump.elim .inr fun hb => .inl hb.1)
      · exact h.pcRegE.add_four

/-- After an edge out of reset, the PC in F is even if and only if E did not redirect it to an odd
address. -/
theorem pcRegF_edge_iff (hs : s.Inv) (hrst : i.rst = false) :
    IsEven (s.edge i s.lookup).pcRegF ↔ s.EvenTarget i := by
  rw [edge_pcRegF hrst]
  unfold EvenTarget redirects Datapath.pcSrc
  rcases Bool.eq_false_or_eq_true (s.readyD i) with hr | hr
  · rcases Bool.eq_false_or_eq_true s.preWrongValid with hp | hp
    · -- A redirect comes from an instruction in E.
      have hv : s.ctl.validE = true := by
        rw [preWrongValid, Bool.and_eq_true] at hp
        exact hp.2
      rw [hr, hp, if_pos rfl, if_pos rfl, h.pcCorrectionPath_iff hs hv]
      simp
    · rw [hr, hp, if_pos rfl, if_neg Bool.false_ne_true]
      -- The predicted path is even.
      simp [h.pcPredictPath]
  · rw [hr, if_neg Bool.false_ne_true]
    simp [h.pcRegF]

/-- An edge that does not redirect to an odd address keeps every PC even. -/
theorem edge (hs : s.Inv) (hrst : i.rst = false) (ht : s.EvenTarget i) :
    (s.edge i s.lookup).EvenPcs := by
  constructor
  · exact (h.pcRegF_edge_iff hs hrst).mpr ht
  · rw [edge_fd hrst]
    split_ifs
    · exact h.pcRegF
    · exact h.pcRegD
  · rw [edge_de hrst]
    split_ifs
    · exact h.pcRegD
    · exact h.pcRegE
  · intro k
    rw [edge_btb hrst]
    split_ifs with hu
    · -- The entry of the instruction in D is written, if any.
      show (Function.update s.btb.btbTargets (Btb.index s.fd.pcRegD) s.btbUpdateTarget k).getLsbD 0 =
        false
      rcases eq_or_ne k (Btb.index s.fd.pcRegD) with hk | hk
      · rw [hk, Function.update_self]
        exact h.btbUpdateTarget hu
      · rw [Function.update_of_ne hk]
        exact h.btbTargets k
    · exact h.btbTargets k

end EvenPcs

end Datapath

/-! ## Runs -/

/-- In every run of the core from reset, the fetch PC is even in every cycle if and only if no
`jalr` with an odd sum and no `mret` with an odd `mepc` redirects it. -/
theorem evenPc_iff {w : ℕ → BusWords} {y : ℕ → Npc} (hrun : NpcRun w y) :
    (∀ t, IsEven (y t).core.pcRegF) ↔ ∀ t, (y t).core.EvenTarget ((y t).input false (w t)) := by
  have hs := fun t => hrun.coreRun.inv t
  constructor
  · intro h
    -- While the PC has been even, no redirect has gone to an odd address, and so every PC is even.
    have hall : ∀ t, (y t).core.EvenPcs := by
      intro t
      induction t with
      | zero => exact hrun.reset.core.evenPcs
      | succ t ih =>
        have ht := (ih.pcRegF_edge_iff (hs t) rfl).mp (by rw [← Npc.step_core, ← hrun.step]; exact h _)
        rw [hrun.step, Npc.step_core]
        exact ih.edge (hs t) rfl ht
    intro t
    apply ((hall t).pcRegF_edge_iff (hs t) rfl).mp
    rw [← Npc.step_core, ← hrun.step]
    exact h _
  · intro h t
    have hall : (y t).core.EvenPcs := by
      induction t with
      | zero => exact hrun.reset.core.evenPcs
      | succ t ih =>
        rw [hrun.step, Npc.step_core]
        exact ih.edge (hs t) rfl (h t)
    exact hall.pcRegF

/-! ## A call through an odd pointer -/

/-- The words `auipc x1, 0` and `jalr x0, 9(x1)` at the reset address. -/
def oddCall : Memories :=
  let image := ByteMem.ofWords pcRst [0x00000097#32, 0x00908067#32]
  ⟨true, image, image⟩

/-- The run of the call. -/
def oddCallRun : ℕ → Npc :=
  Clocked.run (fun m y => y.step (y.words m)) Npc.reset fun _ => oddCall

theorem oddCallRun_run : NpcRun (fun t => (oddCallRun t).words oddCall) oddCallRun :=
  ⟨Npc.afterReset_reset, fun _ => rfl⟩

/-- The call goes to `0x80000009`, where the instruction set goes to `0x80000008`. -/
theorem oddCall_odd : NpcRun (fun t => (oddCallRun t).words oddCall) oddCallRun ∧
    (oddCallRun 4).core.pcRegF = 0x80000009#32 ∧ ¬ ∀ t, IsEven (oddCallRun t).core.pcRegF := by
  have hpc : (oddCallRun 4).core.pcRegF = 0x80000009#32 := by decide +kernel
  refine ⟨oddCallRun_run, hpc, fun h => ?_⟩
  have h4 := h 4
  rw [hpc] at h4
  exact absurd h4 (by decide)

/-- The redirect of the call is the one that the condition rules out. -/
theorem evenPc_iff_oddCall : (∀ t, IsEven (oddCallRun t).core.pcRegF) ↔
    ∀ t, (oddCallRun t).core.EvenTarget ((oddCallRun t).input false ((oddCallRun t).words oddCall)) :=
  evenPc_iff oddCallRun_run

end RV32Pipeline
