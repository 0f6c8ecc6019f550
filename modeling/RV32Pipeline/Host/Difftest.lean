import Mathlib.Data.Nat.Count
import RV32Pipeline.Host.Memory

/-!
# When differential testing skips a step

`difftest_skip_ref` shifts a one into `skip_ref` after a step with an access to a device, and
`difftest_step` copies the registers to the reference instead of comparing them if the next bit of
`skip_ref` is set. Nothing shifts the register in the other steps and nothing clears it, so the
decision depends on how many steps with an access there have been, and not on when.
-/

namespace RV32Pipeline

/-- The structure `CPU_reg`. -/
structure CpuReg where
  gpr : Fin 32 → Word
  pc : Word
  mtvec : Word
  mstatus : Word
  mcause : Word
  mepc : Word

/-- The functions of the reference design, a shared library: `difftest_exec` for one instruction,
and `difftest_regcpy` in both directions. -/
structure Reference (R : Type*) where
  exec : R → R
  toDut : R → CpuReg
  toRef : CpuReg → R → R

/-- What `difftest_step` does: it copies the registers to the reference, or lets the reference
execute an instruction and compares the registers. -/
inductive DiffAction where
  | copy
  | compare
  deriving DecidableEq

/-- The variables of differential testing, and the state of the reference. -/
structure Difftest (R : Type*) where
  skipDifftest : Bool
  skipRef : BitVec 8
  first : Bool
  state : CpuState
  ref : R

namespace Difftest

variable {R : Type*} (ref : Reference R)

/-- The constant `SKIP_DELAY`. -/
def skipDelay : ℕ := 1

/-- The function `difftest_skip_ref`. -/
def difftestSkipRef (d : Difftest R) : Difftest R := { d with skipRef := d.skipRef <<< 1 ||| 1#8 }

/-- What `exec_once` does for differential testing after its calls of `single_cycle`, in which an
access to a device has called `skip_ref` or not. These calls may also set `state`; that is for the
loop around (`loopStep`). -/
def execOnce (mmio : Bool) (d : Difftest R) : Difftest R :=
  let d := if mmio then { d with skipDifftest := true } else d
  if d.skipDifftest then difftestSkipRef { d with skipDifftest := false } else d

/-- The function `difftest_checkregs`. -/
def difftestCheckregs (refR dut : CpuReg) : Bool :=
  dut.pc == refR.pc && decide (∀ i, dut.gpr i = refR.gpr i) && dut.mtvec == refR.mtvec &&
    dut.mstatus == refR.mstatus && dut.mcause == refR.mcause && dut.mepc == refR.mepc

/-- The function `difftest_step`, with the registers of the core. -/
def difftestStep (dut : CpuReg) (d : Difftest R) : DiffAction × Difftest R :=
  if d.skipRef &&& (1#8 <<< skipDelay) ≠ 0#8 then
    (.copy, { d with ref := ref.toRef dut d.ref })
  else
    let r := ref.exec d.ref
    let state := if difftestCheckregs (ref.toDut r) dut then d.state else .abort
    (.compare, { d with ref := r, state := state })

/-- A step of `execute`: nothing is tested in the first one. -/
def execute (mmio : Bool) (dut : CpuReg) (d : Difftest R) : Option DiffAction × Difftest R :=
  let d := execOnce mmio d
  if d.first then (none, { d with first := false })
  else ((difftestStep ref dut d).1, (difftestStep ref dut d).2)

/-- The variables before the first step. -/
def init (r : R) : Difftest R := ⟨false, 0#8, true, .running, r⟩

variable (mmio : ℕ → Bool) (dut : ℕ → CpuReg) (r : R)

/-- The variables after `n` steps; the steps are numbered from 1. -/
def afterSteps : ℕ → Difftest R
  | 0 => init r
  | n + 1 => (execute ref (mmio (n + 1)) (dut (n + 1)) (afterSteps n)).2

/-- What is tested in step `i`. -/
def action (i : ℕ) : Option DiffAction :=
  (execute ref (mmio i) (dut i) (afterSteps ref mmio dut r (i - 1))).1

/-! ## The shift register -/

/-- The number of steps with an access to a device, among the first `n`. -/
def accesses (n : ℕ) : ℕ := Nat.count (fun k => mmio (k + 1) = true) n

theorem accesses_succ (n : ℕ) : accesses mmio (n + 1) = accesses mmio n + (mmio (n + 1)).toNat := by
  rw [accesses, Nat.count_succ, accesses]
  cases mmio (n + 1) <;> rfl

/-- `exec_once` shifts the register in a step with an access, and leaves the flag down. -/
theorem execOnce_eq {d : Difftest R} (h : d.skipDifftest = false) (b : Bool) :
    execOnce b d = { d with skipRef := if b then d.skipRef <<< 1 ||| 1#8 else d.skipRef } := by
  obtain ⟨skip, x, f, st, r⟩ := d
  have hs : skip = false := h
  subst hs
  cases b <;> rfl

/-- The rest of a step leaves the register as it is. -/
theorem execute_skipRef (b : Bool) (dutR : CpuReg) (d : Difftest R) :
    (execute ref b dutR d).2.skipRef = (execOnce b d).skipRef ∧
      (execute ref b dutR d).2.skipDifftest = (execOnce b d).skipDifftest ∧
      (execute ref b dutR d).2.first = false := by
  simp only [execute, difftestStep]
  split_ifs <;> simp_all

/-- A one is shifted into the register from below. -/
theorem getLsbD_shift (x : BitVec 8) :
    (x <<< 1 ||| 1#8).getLsbD 0 = true ∧ (x <<< 1 ||| 1#8).getLsbD 1 = x.getLsbD 0 := by
  revert x
  decide

/-- The bit that `difftest_step` tests. -/
theorem and_skipDelay (x : BitVec 8) : x &&& (1#8 <<< skipDelay) ≠ 0#8 ↔ x.getLsbD 1 = true := by
  revert x
  decide

/-- The lowest bits of the register say whether there have been one and two steps with an access. -/
theorem afterSteps_skipRef (n : ℕ) :
    (afterSteps ref mmio dut r n).skipDifftest = false ∧
      (afterSteps ref mmio dut r n).skipRef.getLsbD 0 = decide (1 ≤ accesses mmio n) ∧
      (afterSteps ref mmio dut r n).skipRef.getLsbD 1 = decide (2 ≤ accesses mmio n) := by
  induction n with
  | zero => simp [afterSteps, init, accesses]
  | succ n ih =>
    obtain ⟨hf, h0, h1⟩ := ih
    obtain ⟨hx, hxs, -⟩ := execute_skipRef ref (mmio (n + 1)) (dut (n + 1))
      (afterSteps ref mmio dut r n)
    rw [afterSteps, hx, hxs, execOnce_eq hf, accesses_succ]
    cases mmio (n + 1)
    · exact ⟨hf, h0, h1⟩
    · obtain ⟨hs0, hs1⟩ := getLsbD_shift (afterSteps ref mmio dut r n).skipRef
      refine ⟨hf, ?_, ?_⟩
      · simp only [if_true, hs0, Bool.toNat_true]
        exact (decide_eq_true (by omega)).symm
      · simp only [if_true, hs1, h0, Bool.toNat_true]
        exact decide_eq_decide.mpr (by omega)

/-- A step after the first is skipped if two steps up to it have had an access. -/
theorem action_eq {i : ℕ} (hi : 2 ≤ i) :
    action ref mmio dut r i =
      some (if 2 ≤ accesses mmio i then DiffAction.copy else DiffAction.compare) := by
  obtain ⟨n, rfl⟩ : ∃ n, i = n + 2 := ⟨i - 2, by omega⟩
  have hfirst : (afterSteps ref mmio dut r (n + 1)).first = false :=
    (execute_skipRef ref _ _ _).2.2
  have hflag := (afterSteps_skipRef ref mmio dut r (n + 1)).1
  have hbit := (afterSteps_skipRef ref mmio dut r (n + 2)).2.2
  rw [afterSteps, (execute_skipRef ref _ _ _).1] at hbit
  have hne : (execOnce (mmio (n + 2)) (afterSteps ref mmio dut r (n + 1))).first = false := by
    rw [execOnce_eq hflag]
    exact hfirst
  rw [action, show n + 2 - 1 = n + 1 from rfl, execute]
  simp only [hne, Bool.false_eq_true, if_false, difftestStep, and_skipDelay, hbit,
    decide_eq_true_eq]
  split_ifs <;> rfl

/-! ## The law -/

/-- In a run of `n` steps, a step with an access is followed by a step with an access: except for
the last step, and for the one before it unless that has the first access of the run. -/
def SkipsFollow (mmio : ℕ → Bool) (n : ℕ) : Prop :=
  ∀ k, 1 ≤ k → k < n → mmio k = true →
    (k + 1 < n ∨ ∀ j, 1 ≤ j → j < k → mmio j = false) → mmio (k + 1) = true

variable {mmio}

/-- A step with an access counts. -/
theorem accesses_pos {k i : ℕ} (hk : 1 ≤ k) (hki : k ≤ i) (h : mmio k = true) :
    1 ≤ accesses mmio i := by
  obtain ⟨j, rfl⟩ : ∃ j, k = j + 1 := ⟨k - 1, by omega⟩
  have h1 : 1 ≤ accesses mmio (j + 1) := by
    rw [accesses_succ, h]
    exact Nat.le_add_left 1 _
  exact h1.trans (Nat.count_monotone _ hki)

/-- Without a step with an access there is nothing to count. -/
theorem accesses_eq_zero {i : ℕ} (h : ∀ j, 1 ≤ j → j ≤ i → mmio j = false) :
    accesses mmio i = 0 := by
  induction i with
  | zero => simp [accesses]
  | succ i ih =>
    rw [accesses_succ, ih fun j h1 hj => h j h1 (by omega), h (i + 1) (by omega) le_rfl]
    rfl

/-- Among the steps up to `i` there is one with an access. -/
theorem exists_of_accesses_pos {i : ℕ} (h : 1 ≤ accesses mmio i) :
    ∃ k, 1 ≤ k ∧ k ≤ i ∧ mmio k = true := by
  by_contra hn
  have hz : accesses mmio i = 0 := accesses_eq_zero fun j h1 hj => by
    by_contra hj'
    exact hn ⟨j, h1, hj, by simpa using hj'⟩
  omega

/-- From a step with an access on, all steps but the last have one. -/
theorem SkipsFollow.all {n k : ℕ} (h : SkipsFollow mmio n) (hk : 1 ≤ k) (hf : mmio k = true) (d : ℕ)
    (hd : k + d < n) : mmio (k + d) = true := by
  induction d with
  | zero => exact hf
  | succ d ih => exact h (k + d) (by omega) (by omega) (ih (by omega)) (.inl hd)

/-- Two of the steps up to `i` have an access exactly if step `i - 1` has one, for every `i` up to
`n`, if and only if the steps with an access follow one another to the end. -/
theorem accesses_law (n : ℕ) :
    (∀ i, 2 ≤ i → i ≤ n → (2 ≤ accesses mmio i ↔ mmio (i - 1) = true)) ↔ SkipsFollow mmio n := by
  constructor
  · rintro h k hk hkn hf (hlt | hfirst)
    · -- Step `k` makes step `k + 1` skip, so step `k + 2` skips as well.
      have h1 := (h (k + 1) (by omega) (by omega)).mpr hf
      have h2 : 2 ≤ accesses mmio (k + 2) := h1.trans (Nat.count_monotone _ (by omega))
      exact (h (k + 2) (by omega) (by omega)).mp h2
    · have h1 := (h (k + 1) (by omega) (by omega)).mpr hf
      -- The first access is in the last step but one: the last step has one as well.
      obtain ⟨j, rfl⟩ : ∃ j, k = j + 1 := ⟨k - 1, by omega⟩
      rw [accesses_succ, accesses_succ, hf,
        accesses_eq_zero fun i h1 hi => hfirst i h1 (by omega)] at h1
      by_contra hn
      rw [Bool.not_eq_true] at hn
      rw [hn] at h1
      simp at h1
  · intro h i hi hin
    obtain ⟨j, rfl⟩ : ∃ j, i = j + 2 := ⟨i - 2, by omega⟩
    change 2 ≤ accesses mmio (j + 1 + 1) ↔ mmio (j + 1) = true
    constructor
    · intro h2
      have h1 : 1 ≤ accesses mmio (j + 1) := by
        rw [accesses_succ] at h2
        have := Bool.toNat_le (mmio (j + 1 + 1))
        omega
      -- An earlier step had an access, and so have all behind it.
      obtain ⟨k, hk, hkj, hf⟩ := exists_of_accesses_pos h1
      have hall := h.all hk hf (j + 1 - k) (by omega)
      rwa [show k + (j + 1 - k) = j + 1 by omega] at hall
    · intro hf
      rw [accesses_succ, accesses_succ, hf, Bool.toNat_true]
      rcases Nat.eq_zero_or_pos (accesses mmio j) with h0 | hpos
      · -- Step `j + 1` has the first access, so the next step has one, too.
        have hfirst : ∀ k, 1 ≤ k → k < j + 1 → mmio k = false := fun k hk hkj => by
          by_contra hk'
          have := accesses_pos hk (Nat.le_of_lt_succ hkj) (by simpa using hk')
          omega
        rw [h (j + 1) (by omega) (by omega) hf (.inr hfirst), Bool.toNat_true]
        omega
      · omega

/-- For every run of `n` steps of `execute`, with any reference design and any registers: the steps
from the second on that copy the registers to the reference are those behind a step with an access
to a device, and in the others the reference executes an instruction and its registers are compared,
if and only if the steps with an access follow one another to the end. -/
theorem difftest_skips_iff (n : ℕ) :
    (∀ i, 2 ≤ i → i ≤ n → action ref mmio dut r i =
      some (if mmio (i - 1) then DiffAction.copy else DiffAction.compare)) ↔ SkipsFollow mmio n := by
  rw [← accesses_law]
  refine forall_congr' fun i => forall_congr' fun hi => forall_congr' fun _ => ?_
  rw [action_eq ref mmio dut r hi]
  by_cases h2 : 2 ≤ accesses mmio i <;> cases mmio (i - 1) <;> simp [h2]

/-- Registers that hold 0. -/
def zeroRegs : CpuReg := ⟨fun _ => 0#32, 0#32, 0#32, 0#32, 0#32, 0#32⟩

/-- A reference design that stands still. -/
def stillReference : Reference CpuReg := ⟨id, id, fun dut _ => dut⟩

/-- Steps 2 and 4 of a run access a device. -/
def twoAccesses (i : ℕ) : Bool := i == 2 || i == 4

/-- After two accesses no step is compared any more: step 7 is skipped, although step 6 has no
access. -/
theorem twoAccesses_skip :
    ¬ ∀ i, 2 ≤ i → i ≤ 7 → action stillReference twoAccesses (fun _ => zeroRegs) zeroRegs i =
      some (if twoAccesses (i - 1) then DiffAction.copy else DiffAction.compare) := by
  intro h
  have h7 := h 7 (by decide) le_rfl
  rw [action_eq stillReference twoAccesses _ zeroRegs (by decide : 2 ≤ 7)] at h7
  exact absurd h7 (by decide)

end Difftest

end RV32Pipeline
