import RV32Pipeline.Host.RegCompare
import RV32Pipeline.Pipeline.Isa

/-!
# What differential testing finds

Up to the second access to a device every step from the second on is compared, with a reference that
is one instruction ahead; after it nothing is compared any more. So a run is aborted exactly where
an access is out of bounds, or where the registers of the core differ from those of the reference
before that access. The core with a program of base instructions passes the test against the machine
of the instruction set, although its snapshot has two CSRs exchanged: the reference is started from
the same snapshot.
-/

namespace RV32Pipeline

/-- Each instruction is in W in some cycle. -/
theorem CoreRun.exists_inW {inp : ℕ → DatapathIn} {look : ℕ → Lookup} {s : ℕ → Datapath}
    (h : CoreRun inp look s) (hfair : Fair fun t => (inp t).dataAxiRvalid) (n : ℕ) :
    ∃ t, (s t).ctl.validW = true ∧ retired s t = n := by
  have hinf : (Set.ofPred fun u => (s u).ctl.validW = true).Infinite :=
    Set.infinite_of_forall_exists_gt fun t =>
      let ⟨u, hu, hv⟩ := h.exists_validW hfair t
      ⟨u, hv, hu⟩
  exact ⟨_, Nat.nth_mem_of_infinite hinf n, Nat.count_nth_of_infinite hinf n⟩

namespace Difftest

variable {R : Type*} (ref : Reference R) (mmio : ℕ → Bool) (dut : ℕ → CpuReg) (r : R)

/-! ## The verdict of a run -/

/-- In step `i` the registers of the core are not those of the reference, which has executed all
instructions but the last. -/
def Differs (i : ℕ) : Prop := ref.toDut (ref.exec^[i - 1] r) ≠ dut i

/-- Differential testing finds a difference in step `i`. -/
def Finds (i : ℕ) : Prop := 2 ≤ i ∧ accesses mmio i ≤ 1 ∧ Differs ref dut r i

/-- The first step tests nothing. -/
theorem afterSteps_one : (afterSteps ref mmio dut r 1).ref = r ∧
    (afterSteps ref mmio dut r 1).state = .running := by
  rw [afterSteps, execute, execOnce_eq rfl]
  exact ⟨rfl, rfl⟩

/-- A step after the first, as the number of accesses decides. -/
theorem afterSteps_succ {n : ℕ} (hn : 1 ≤ n) :
    let d := afterSteps ref mmio dut r n
    let d' := afterSteps ref mmio dut r (n + 1)
    if 2 ≤ accesses mmio (n + 1) then d'.ref = ref.toRef (dut (n + 1)) d.ref ∧ d'.state = d.state
    else d'.ref = ref.exec d.ref ∧ d'.state =
      if difftestCheckregs (ref.toDut (ref.exec d.ref)) (dut (n + 1)) then d.state else .abort := by
  obtain ⟨m, rfl⟩ : ∃ m, n = m + 1 := ⟨n - 1, by omega⟩
  intro d d'
  have hflag : d.skipDifftest = false := (afterSteps_skipRef ref mmio dut r (m + 1)).1
  have hfirst : (execOnce (mmio (m + 2)) d).first = false := by
    rw [execOnce_eq hflag]
    exact (execute_skipRef ref _ _ _).2.2
  have hbit := (afterSteps_skipRef ref mmio dut r (m + 2)).2.2
  rw [afterSteps, (execute_skipRef ref _ _ _).1] at hbit
  have href : (execOnce (mmio (m + 2)) d).ref = d.ref := by rw [execOnce_eq hflag]
  have hstate : (execOnce (mmio (m + 2)) d).state = d.state := by rw [execOnce_eq hflag]
  have hd' : d' = (difftestStep ref (dut (m + 2)) (execOnce (mmio (m + 2)) d)).2 := by
    change (execute ref (mmio (m + 2)) (dut (m + 2)) d).2 = _
    simp only [execute, hfirst, Bool.false_eq_true, if_false]
  have hskip : (execOnce (mmio (m + 2)) d).skipRef &&& (1#8 <<< skipDelay) ≠ 0#8 ↔
      2 ≤ accesses mmio (m + 2) := by
    rw [and_skipDelay, hbit, decide_eq_true_eq]
  by_cases h2 : 2 ≤ accesses mmio (m + 2)
  · rw [if_pos h2, hd', difftestStep, if_pos (hskip.mpr h2), ← href, ← hstate]
    exact ⟨rfl, rfl⟩
  · rw [if_neg h2, hd', difftestStep, if_neg fun h => h2 (hskip.mp h), ← href, ← hstate]
    exact ⟨rfl, rfl⟩

/-- Nothing has been found in `n` steps: the simulator runs, and before the second access the
reference has executed as many instructions as there were steps after the first. -/
structure Passed (n : ℕ) : Prop where
  state : (afterSteps ref mmio dut r n).state = .running
  exec : accesses mmio n ≤ 1 → (afterSteps ref mmio dut r n).ref = ref.exec^[n - 1] r

variable {ref mmio dut r}

/-- The next step sets `ABORT` if it finds a difference. -/
theorem Passed.step {n : ℕ} (h : Passed ref mmio dut r n) :
    (Finds ref mmio dut r (n + 1) → (afterSteps ref mmio dut r (n + 1)).state = .abort) ∧
      (¬ Finds ref mmio dut r (n + 1) → Passed ref mmio dut r (n + 1)) := by
  rcases Nat.eq_zero_or_pos n with rfl | hn
  · -- The first step tests nothing.
    obtain ⟨hr, hs⟩ := afterSteps_one ref mmio dut r
    exact ⟨fun hf => absurd hf.1 (by decide), fun _ => ⟨hs, fun _ => hr⟩⟩
  have hsucc := afterSteps_succ ref mmio dut r hn
  by_cases h2 : 2 ≤ accesses mmio (n + 1)
  · -- From the second access on, the registers are copied.
    rw [if_pos h2, h.state] at hsucc
    exact ⟨fun hf => absurd hf.2.1 (by omega), fun _ => ⟨hsucc.2, fun h => absurd h2 (by omega)⟩⟩
  · -- The reference executes an instruction, and the registers are compared.
    have hmono : accesses mmio n ≤ accesses mmio (n + 1) := Nat.count_monotone _ (Nat.le_succ n)
    have hexec : ref.exec (afterSteps ref mmio dut r n).ref = ref.exec^[n] r := by
      rw [h.exec (by omega), ← Function.iterate_succ_apply' ref.exec, Nat.succ_eq_add_one,
        Nat.sub_add_cancel hn]
    have hcheck : difftestCheckregs (ref.toDut (ref.exec^[n] r)) (dut (n + 1)) = true ↔
        ¬ Finds ref mmio dut r (n + 1) := by
      rw [difftestCheckregs_iff, Finds, Differs, Nat.add_sub_cancel]
      have hge : 2 ≤ n + 1 := by omega
      have hacc : accesses mmio (n + 1) ≤ 1 := by omega
      simp only [hge, hacc, true_and, not_not]
    rw [if_neg h2, hexec, h.state] at hsucc
    refine ⟨fun hf => ?_, fun hf => ⟨?_, fun _ => hsucc.1⟩⟩
    · rw [hsucc.2, if_neg fun hc => hcheck.mp hc hf]
    · rw [hsucc.2, if_pos (hcheck.mpr hf)]

theorem passed_of_not_finds (n : ℕ) (h : ∀ j, 1 ≤ j → j ≤ n → ¬ Finds ref mmio dut r j) :
    Passed ref mmio dut r n := by
  induction n with
  | zero => exact ⟨rfl, fun _ => rfl⟩
  | succ n ih =>
    exact (ih fun j h1 hj => h j h1 (by omega)).step.2 (h (n + 1) (by omega) le_rfl)

/-! ## The loop -/

variable (ref mmio dut r) (own : ℕ → CpuState)

/-- A step of the loop of `execute`, in which `single_cycle` leaves the state `own` behind if it was
`RUNNING`. The loop ends in another state, and `cpu_exec` does not enter it again in `END` and
`ABORT`. -/
def loopStep (own : CpuState) (b : Bool) (c : CpuReg) (d : Difftest R) : Difftest R :=
  if d.state = .running then (execute ref b c { d with state := own }).2 else d

/-- The variables after at most `n` steps of the loop. -/
def afterLoop : ℕ → Difftest R
  | 0 => init r
  | n + 1 => loopStep ref (own (n + 1)) (mmio (n + 1)) (dut (n + 1)) (afterLoop n)

/-- Before step `i` the simulator has run, and every check has passed. -/
def RunsBefore (Fails : ℕ → Prop) (i : ℕ) : Prop :=
  ∀ j, 1 ≤ j → j < i → own j = .running ∧ ¬ Fails j

/-- In one of the first `n` steps of the loop the simulator sets `ABORT` itself or a check fails. -/
def AbortsBy (Fails : ℕ → Prop) (n : ℕ) : Prop :=
  ∃ i, 1 ≤ i ∧ i ≤ n ∧ RunsBefore own Fails i ∧ (own i = .abort ∨ Fails i)

variable {own}

theorem runsBefore_succ {P : ℕ → Prop} {n : ℕ} (hn : 1 ≤ n) : RunsBefore own P (n + 1) ↔
    RunsBefore own P n ∧ own n = .running ∧ ¬ P n := by
  constructor
  · exact fun h => ⟨fun j h1 hj => h j h1 (by omega), h n hn (Nat.lt_succ_self n)⟩
  · rintro ⟨h, hlast⟩ j h1 hj
    rcases Nat.lt_succ_iff_lt_or_eq.mp hj with hlt | rfl
    · exact h j h1 hlt
    · exact hlast

/-- The loop does not abort while it runs. -/
theorem RunsBefore.not_abortsBy {P : ℕ → Prop} {n : ℕ} (h : RunsBefore own P (n + 1)) :
    ¬ AbortsBy own P n := by
  rintro ⟨i, h1, hi, -, habort⟩
  obtain ⟨hrun, hp⟩ := h i h1 (by omega)
  rw [hrun] at habort
  exact habort.elim (by decide) hp

theorem abortsBy_succ {P : ℕ → Prop} (n : ℕ) : AbortsBy own P (n + 1) ↔
    AbortsBy own P n ∨ (RunsBefore own P (n + 1) ∧ (own (n + 1) = .abort ∨ P (n + 1))) := by
  constructor
  · rintro ⟨i, h1, hi, h⟩
    rcases Nat.le_succ_iff.mp hi with hle | rfl
    · exact .inl ⟨i, h1, hle, h⟩
    · exact .inr h
  · rintro (⟨i, h1, hi, h⟩ | h)
    · exact ⟨i, h1, by omega, h⟩
    · exact ⟨n + 1, by omega, le_rfl, h⟩

theorem not_abortsBy_zero {P : ℕ → Prop} : ¬ AbortsBy own P 0 := by
  rintro ⟨i, h1, hi, -⟩
  omega

/-- Two kinds of checks that fail for the first time in the same step. -/
theorem AbortsBy.congr {P Q : ℕ → Prop}
    (h : ∀ i, 1 ≤ i → (∀ j, 1 ≤ j → j < i → ¬ Q j) → (P i ↔ Q i)) (n : ℕ) :
    AbortsBy own P n ↔ AbortsBy own Q n := by
  -- As long as one of them has not failed the other has not failed either.
  have hruns (i : ℕ) : RunsBefore own P (i + 1) ↔ RunsBefore own Q (i + 1) := by
    induction i with
    | zero => exact iff_of_true (fun j _ hj => by omega) fun j _ hj => by omega
    | succ i ih =>
      rw [runsBefore_succ i.succ_pos, runsBefore_succ i.succ_pos (P := Q), ih]
      exact and_congr_right fun hq => and_congr_right fun _ =>
        not_congr (h (i + 1) i.succ_pos fun j h1 hj => (hq j h1 hj).2)
  induction n with
  | zero => exact iff_of_false not_abortsBy_zero not_abortsBy_zero
  | succ n ih =>
    rw [abortsBy_succ, abortsBy_succ (P := Q), hruns]
    exact or_congr ih (and_congr_right fun hq =>
      or_congr_right (h (n + 1) n.succ_pos fun j h1 hj => (hq j h1 hj).2))

/-- `exec_once` does not look at the state. -/
theorem execOnce_own (s : CpuState) (b : Bool) (d : Difftest R) :
    execOnce b { d with state := s } = { execOnce b d with state := s } ∧
      (execOnce b d).state = d.state := by
  obtain ⟨skip, x, first, state, r⟩ := d
  cases skip <;> cases b <;> exact ⟨rfl, rfl⟩

/-- What a check does to a state that `single_cycle` has changed. -/
theorem difftestStep_own (s : CpuState) (c : CpuReg) {d : Difftest R} (h : d.state = .running) :
    (difftestStep ref c { d with state := s }).2 =
      { (difftestStep ref c d).2 with
        state := if (difftestStep ref c d).2.state = .running then s else .abort } := by
  unfold difftestStep
  by_cases hskip : d.skipRef &&& (1#8 <<< skipDelay) ≠ 0#8
  · rw [if_pos hskip, if_pos hskip, if_pos h]
  · rw [if_neg hskip, if_neg hskip]
    by_cases hc : difftestCheckregs (ref.toDut (ref.exec d.ref)) c = true
    · simp only [if_pos hc, h, if_true]
    · simp only [if_neg hc, reduceCtorEq, if_false]

/-- What a step does to such a state. -/
theorem execute_own (s : CpuState) (b : Bool) (c : CpuReg) {d : Difftest R}
    (h : d.state = .running) :
    (execute ref b c { d with state := s }).2 =
      { (execute ref b c d).2 with
        state := if (execute ref b c d).2.state = .running then s else .abort } := by
  obtain ⟨hown, hstate⟩ := execOnce_own s b d
  rw [h] at hstate
  unfold execute
  rw [hown]
  by_cases hf : (execOnce b d).first = true
  · simp only [if_pos hf, hstate, if_true]
  · simp only [if_neg hf]
    exact difftestStep_own ref s c hstate

/-- A step that the loop reaches. -/
theorem loopStep_afterSteps (s : CpuState) {n : ℕ} (h : Passed ref mmio dut r n) :
    loopStep ref s (mmio (n + 1)) (dut (n + 1)) (afterSteps ref mmio dut r n) =
      { afterSteps ref mmio dut r (n + 1) with
        state := if (afterSteps ref mmio dut r (n + 1)).state = .running then s else .abort } := by
  rw [loopStep, if_pos h.state, execute_own ref s _ _ h.state, afterSteps]

/-- The loop goes through the steps as long as it runs. -/
theorem afterLoop_of_runsBefore {n : ℕ} (h : RunsBefore own (Finds ref mmio dut r) (n + 1)) :
    afterLoop ref mmio dut r own n = afterSteps ref mmio dut r n ∧ Passed ref mmio dut r n := by
  have hpassed : Passed ref mmio dut r n :=
    passed_of_not_finds n fun j h1 hj => (h j h1 (by omega)).2
  refine ⟨?_, hpassed⟩
  induction n with
  | zero => rfl
  | succ n ih =>
    obtain ⟨hbefore, hrun, -⟩ := (runsBefore_succ n.succ_pos).mp h
    have hprev : Passed ref mmio dut r n :=
      passed_of_not_finds n fun j h1 hj => (hbefore j h1 (by omega)).2
    rw [afterLoop, ih hbefore hprev, loopStep_afterSteps ref mmio dut r _ hprev, hrun,
      if_pos hpassed.state, ← hpassed.state]

/-- The state that a step leaves behind, if the loop reaches it. -/
theorem afterLoop_state {n : ℕ} (h : RunsBefore own (Finds ref mmio dut r) (n + 1)) :
    (Finds ref mmio dut r (n + 1) ∧ (afterLoop ref mmio dut r own (n + 1)).state = .abort) ∨
      (¬ Finds ref mmio dut r (n + 1) ∧
        (afterLoop ref mmio dut r own (n + 1)).state = own (n + 1)) := by
  obtain ⟨heq, hpassed⟩ := afterLoop_of_runsBefore ref mmio dut r h
  rw [afterLoop, heq, loopStep_afterSteps ref mmio dut r _ hpassed]
  by_cases hf : Finds ref mmio dut r (n + 1)
  · refine .inl ⟨hf, if_neg ?_⟩
    rw [hpassed.step.1 hf]
    decide
  · exact .inr ⟨hf, if_pos (hpassed.step.2 hf).state⟩

/-- The loop runs as long as nothing has stopped it, and then stays as it is. -/
theorem afterLoop_verdict (n : ℕ) :
    ((afterLoop ref mmio dut r own n).state = .running ↔
        RunsBefore own (Finds ref mmio dut r) (n + 1)) ∧
      ((afterLoop ref mmio dut r own n).state = .abort ↔
        AbortsBy own (Finds ref mmio dut r) n) := by
  induction n with
  | zero =>
    exact ⟨iff_of_true rfl fun j h1 hj => by omega,
      iff_of_false CpuState.noConfusion not_abortsBy_zero⟩
  | succ n ih =>
    obtain ⟨hrunning, habort⟩ := ih
    rw [runsBefore_succ n.succ_pos, abortsBy_succ]
    by_cases hr : RunsBefore own (Finds ref mmio dut r) (n + 1)
    · rcases afterLoop_state ref mmio dut r hr with ⟨hf, hs⟩ | ⟨hf, hs⟩ <;> rw [hs]
      · exact ⟨iff_of_false (by decide) fun h => h.2.2 hf, iff_of_true rfl (.inr ⟨hr, .inr hf⟩)⟩
      · refine ⟨⟨fun h => ⟨hr, h, hf⟩, fun h => h.2.1⟩, fun h => .inr ⟨hr, .inl h⟩, fun h => ?_⟩
        exact (h.resolve_left hr.not_abortsBy).2.resolve_right hf
    · -- The loop has ended, and the state does not change any more.
      have hstop : ¬ (afterLoop ref mmio dut r own n).state = .running := fun h =>
        hr (hrunning.mp h)
      rw [afterLoop, loopStep, if_neg hstop, habort]
      exact ⟨iff_of_false hstop fun h => hr h.1, .inl, fun h => h.resolve_right fun h => hr h.1⟩

/-- In every run of the loop, with any reference design and whatever `single_cycle` leaves in
`state`: the simulator has aborted within `n` steps exactly if in some step that the loop reached
`single_cycle` has set `ABORT`, or the registers were compared, before the second access to a
device, and were not those of the reference. -/
theorem abort_iff_finds (n : ℕ) : (afterLoop ref mmio dut r own n).state = .abort ↔
    AbortsBy own (Finds ref mmio dut r) n :=
  (afterLoop_verdict ref mmio dut r n).2

/-! ## The reference as a machine of the instruction set -/

open Rv32i

/-- A machine of the instruction set as the reference design. -/
def isaReference (code : Word → SysInstr) : Reference State where
  exec := State.step code
  toDut s :=
    { gpr i := s.reg (BitVec.ofNat 5 i)
      pc := s.pc
      mtvec := s.csr mtvec
      mstatus := s.csr mstatus
      mcause := s.csr mcause
      mepc := s.csr mepc }
  toRef d s :=
    { s with
      pc := d.pc
      regs r := d.gpr r.toFin
      csr c := if c = mtvec then d.mtvec else if c = mstatus then d.mstatus
        else if c = mcause then d.mcause else if c = mepc then d.mepc else s.csr c }

/-- The snapshot of a core that shows a state of the machine. -/
def snapshot (s : State) : CpuReg where
  gpr i := s.reg (BitVec.ofNat 5 i)
  pc := s.pc
  mtvec := s.csr mtvec
  mstatus := s.csr mcause
  mcause := s.csr mstatus
  mepc := s.csr mepc

/-- The instruction accesses `mstatus` or `mcause`, otherwise than by a `csrrs` without a
destination and without a bit to set. -/
def Touches (s : State) : SysInstr → Prop
  | .csrrw _ csr _ => csr = mstatus ∨ csr = mcause
  | .csrrs rd csr rs1 => (csr = mstatus ∨ csr = mcause) ∧ (rd ≠ 0#5 ∨ s.reg rs1 ≠ 0#32)
  | _ => False

/-- The instruction that step `i` compares touches the two CSRs. -/
def ComparesTouching (code : Word → SysInstr) (dmem : ByteMem 32) (mmio : ℕ → Bool) (i : ℕ) :
    Prop :=
  ∃ k, i = k + 2 ∧ accesses mmio i ≤ 1 ∧
    Touches (isaSeq code dmem k) (code (isaSeq code dmem k).pc)

/-- The reference `r` is in the state `s` of the core, but for the initial values of `mstatus` and
`mcause`, which are exchanged. -/
structure Exchanged (s r : State) : Prop where
  pc : r.pc = s.pc
  reg : ∀ x, r.reg x = s.reg x
  mem : r.mem = s.mem
  csr : ∀ c, c ≠ mstatus → c ≠ mcause → r.csr c = s.csr c
  mstatus : s.csr mstatus = 0x1800#32 ∧ r.csr mstatus = 0#32
  mcause : s.csr mcause = 0#32 ∧ r.csr mcause = 0x1800#32

namespace Exchanged

variable {s r : State} (h : Exchanged s r)
include h

/-- The comparison succeeds. -/
theorem toDut_eq (code : Word → SysInstr) : (isaReference code).toDut r = snapshot s := by
  unfold isaReference snapshot
  simp only [h.reg, h.pc, h.mstatus, h.mcause, h.csr Rv32i.mtvec (by decide) (by decide),
    h.csr mepc (by decide) (by decide)]

/-- A base instruction has the same effect on both. -/
theorem effect_eq (i : Instr) : r.effect i = s.effect i := by
  unfold State.effect
  simp only [h.reg, h.pc, h.mem]

/-- Steps that leave the CSRs alone keep the relation. -/
theorem of_csr_eq {s' r' : State} (hpc : r'.pc = s'.pc) (hreg : ∀ x, r'.reg x = s'.reg x)
    (hmem : r'.mem = s'.mem) (hs : s'.csr = s.csr) (hr : r'.csr = r.csr) : Exchanged s' r' where
  pc := hpc
  reg := hreg
  mem := hmem
  csr := by
    rw [hs, hr]
    exact h.csr
  mstatus := by
    rw [hs, hr]
    exact h.mstatus
  mcause := by
    rw [hs, hr]
    exact h.mcause

/-- Both write the same to a register. -/
theorem setReg (rd : Reg) (v : Word) (x : Reg) : (r.setReg rd v).reg x = (s.setReg rd v).reg x := by
  rw [State.setReg_reg, State.setReg_reg, h.reg]

/-- A base instruction keeps the relation. -/
theorem exec_base (i : Instr) : Exchanged (s.exec (.base i)) (r.exec (.base i)) := by
  have he := h.effect_eq i
  refine h.of_csr_eq (congrArg Effect.nextPc he) (fun x => ?_) ?_ rfl rfl
  · change (if x = 0#5 then 0#32 else (r.exec (.base i)).regs x) =
      if x = 0#5 then 0#32 else (s.exec (.base i)).regs x
    simp only [State.exec, he]
    rcases (s.effect i).dest with _ | ⟨rd, v⟩
    · exact h.reg x
    · exact h.setReg rd v x
  · simp only [State.exec, he, h.mem]

/-- An access to another CSR keeps the relation. -/
theorem exec_csr {c : BitVec 12} (hs : c ≠ Rv32i.mstatus) (hc : c ≠ Rv32i.mcause) (rd : Reg)
    {v v' : Word} (hv : v' = v) : Exchanged ((s.setReg rd (s.csr c)).setCsr c v).next
      ((r.setReg rd (r.csr c)).setCsr c v').next where
  pc := congrArg (· + 4#32) h.pc
  reg x := by
    rw [h.csr c hs hc]
    exact h.setReg rd _ x
  mem := h.mem
  csr d hds hdc := by
    by_cases hd : d = c
    · simp [hd, hv]
    · simp [hd, h.csr d hds hdc]
  mstatus := by simp [hs.symm, h.mstatus]
  mcause := by simp [hc.symm, h.mcause]

/-- An instruction that does not touch the two CSRs keeps the relation. -/
theorem exec {i : SysInstr} (hi : ¬ Touches s i) : Exchanged (s.exec i) (r.exec i) := by
  cases i with
  | base i => exact h.exec_base i
  | csrrw rd csr rs1 =>
    obtain ⟨hs, hc⟩ := not_or.mp hi
    exact h.exec_csr hs hc rd (h.reg rs1)
  | csrrs rd csr rs1 =>
    by_cases hcsr : csr = Rv32i.mstatus ∨ csr = Rv32i.mcause
    · -- Nothing is written to a register or to a CSR.
      have hzero : rd = 0#5 ∧ s.reg rs1 = 0#32 := by
        simpa only [Touches, hcsr, true_and, not_or, not_not] using hi
      obtain ⟨rfl, hrs1⟩ := hzero
      have hset (t : State) (ht : t.reg rs1 = 0#32) :
          (t.exec (.csrrs 0#5 csr rs1)).csr = t.csr := by
        change Function.update t.csr csr (t.csr csr ||| t.reg rs1) = t.csr
        rw [ht, BitVec.or_zero, Function.update_eq_self]
      refine h.of_csr_eq (congrArg (· + 4#32) h.pc) (fun x => ?_) h.mem (hset s hrs1)
        (hset r (by rw [h.reg, hrs1]))
      change ((r.setReg 0#5 (r.csr csr))).reg x = ((s.setReg 0#5 (s.csr csr))).reg x
      rw [State.setReg_reg, State.setReg_reg, h.reg]
      split_ifs <;> rfl
    · obtain ⟨hs, hc⟩ := not_or.mp hcsr
      exact h.exec_csr hs hc rd (by rw [h.csr csr hs hc, h.reg])
  | mret =>
    exact h.of_csr_eq (h.csr mepc (by decide) (by decide)) h.reg h.mem rfl rfl

/-- The comparison fails after an instruction that touches one of them. -/
theorem toDut_ne (code : Word → SysInstr) {i : SysInstr} (hi : Touches s i) :
    (isaReference code).toDut (r.exec i) ≠ snapshot (s.exec i) := by
  intro he
  have hstatus : (r.exec i).csr Rv32i.mstatus = (s.exec i).csr Rv32i.mcause :=
    congrArg CpuReg.mstatus he
  have hcause : (r.exec i).csr Rv32i.mcause = (s.exec i).csr Rv32i.mstatus :=
    congrArg CpuReg.mcause he
  have hne : Rv32i.mstatus ≠ Rv32i.mcause := by decide
  cases i with
  | base | mret => exact hi
  | csrrw rd csr rs1 =>
    -- One of the two would have to hold both its new value and the initial one of the other.
    change Function.update r.csr csr (r.reg rs1) _ = Function.update s.csr csr (s.reg rs1) _
      at hstatus hcause
    rcases hi with rfl | rfl
    · rw [Function.update_self, Function.update_of_ne hne.symm, h.mcause.1] at hstatus
      rw [Function.update_self, Function.update_of_ne hne.symm, h.mcause.2, ← h.reg, hstatus]
        at hcause
      contradiction
    · rw [Function.update_self, Function.update_of_ne hne, h.mstatus.2] at hstatus
      rw [Function.update_self, Function.update_of_ne hne, h.mstatus.1, h.reg, ← hstatus] at hcause
      contradiction
  | csrrs rd csr rs1 =>
    obtain ⟨hcsr, heffect⟩ := hi
    change Function.update r.csr csr (r.csr csr ||| r.reg rs1) _ =
      Function.update s.csr csr (s.csr csr ||| s.reg rs1) _ at hstatus
    have hzero : s.reg rs1 = 0#32 := by
      rcases hcsr with rfl | rfl
      · rwa [Function.update_self, Function.update_of_ne hne.symm, h.mcause.1, h.mstatus.2,
          BitVec.zero_or, h.reg] at hstatus
      · rw [Function.update_self, Function.update_of_ne hne, h.mcause.1, h.mstatus.2,
          BitVec.zero_or] at hstatus
        exact hstatus.symm
    -- So the instruction has a destination, which receives different values.
    have hrd := heffect.resolve_right (not_not_intro hzero)
    have hreg : (r.setReg rd (r.csr csr)).reg rd = (s.setReg rd (s.csr csr)).reg rd := by
      have hgpr := congrFun (congrArg CpuReg.gpr he) rd.toFin
      change (r.exec _).reg (BitVec.ofNat 5 rd.toNat) = (s.exec _).reg (BitVec.ofNat 5 rd.toNat)
        at hgpr
      rwa [BitVec.ofNat_toNat, BitVec.setWidth_eq] at hgpr
    rw [State.setReg_reg_self _ _ _ hrd, State.setReg_reg_self _ _ _ hrd] at hreg
    rcases hcsr with rfl | rfl
    · rw [h.mstatus.1, h.mstatus.2] at hreg
      contradiction
    · rw [h.mcause.1, h.mcause.2] at hreg
      contradiction

end Exchanged

/-! ## Testing the core -/

/-- The steps of `execute` take the snapshots `dut` of a run: each ends in a cycle in which an
instruction is in W. -/
def Snapshots (s : ℕ → Datapath) (dut : ℕ → CpuReg) : Prop :=
  ∀ t, (s t).ctl.validW = true → dut (retired s t + 1) = (s t).getCpuState

/-- The reference that `init_difftest` has started from a core after reset, with the same memory. -/
def startedReference (code : Word → SysInstr) (dmem : ByteMem 32) (s : Datapath) : State :=
  (isaReference code).toRef s.getCpuState (isaReset dmem)

variable {code : Word → SysInstr}

/-- The reference is started with the initial values of the two CSRs exchanged. -/
theorem exchanged_start {s : Datapath} (hs : s.AfterReset) (dmem : ByteMem 32) :
    Exchanged (isaReset dmem) (startedReference code dmem s) := by
  have hcpu : s.getCpuState = snapshot (isaReset dmem) := by
    have hreg (x : Reg) : RegisterFile.read (fun _ => 0#32) true x = (isaReset dmem).reg x := by
      simp [RegisterFile.read, State.reg, isaReset]
    rw [getCpuState_eq, Datapath.hardwareRegs, hs.rf, hs.mw, hs.csr]
    simp only [hreg]
    rfl
  unfold startedReference
  rw [hcpu]
  refine ⟨rfl, fun x => ?_, rfl, fun c hs hc => ?_, ⟨rfl, rfl⟩, ⟨rfl, rfl⟩⟩
  · change (if x = 0#5 then 0#32 else (isaReset dmem).reg (BitVec.ofNat 5 x.toNat)) = _
    rw [BitVec.ofNat_toNat, BitVec.setWidth_eq]
    split_ifs with hx <;> simp [hx]
  · change (if c = mtvec then 0#32 else _) = (isaReset dmem).csr c
    have h0 : (isaReset dmem).csr c = 0#32 := if_neg hs
    have he : (isaReset dmem).csr mepc = 0#32 := rfl
    simp only [hs, hc, if_false, h0, snapshot, he, ite_self]

/-- The relation holds as long as no instruction has touched the two CSRs. -/
theorem exchanged_run {dmem : ByteMem 32} {r : State} (h : Exchanged (isaReset dmem) r) (n : ℕ)
    (hn : ∀ k < n, ¬ Touches (isaSeq code dmem k) (code (isaSeq code dmem k).pc)) :
    Exchanged (isaSeq code dmem n) ((State.step code)^[n] r) := by
  induction n with
  | zero => exact h
  | succ n ih =>
    have hr := ih fun k hk => hn k (by omega)
    rw [isaSeq_succ, Function.iterate_succ_apply', State.step, hr.pc]
    exact hr.exec (hn n (by omega))

section Core

variable {y₀ : System} {bus : ℕ → Bus} (hreset : y₀.core.AfterReset)
  (hprog : IsaProgram code y₀.mem)
include hreset hprog

/-- The snapshot of the core with an instruction in W shows the state before this instruction. -/
theorem getCpuState_eq_snapshot {t : ℕ} :
    let s := fun t => (Clocked.run System.step y₀ bus t).core
    (s t).ctl.validW = true →
      (s t).getCpuState = snapshot (isaSeq code y₀.mem.dmem (retired s t)) := by
  intro s hv
  have hshow := showsIsa_run y₀ bus hreset hprog t
  have hcsr (c : CsrName) := hshow.csr c
  rw [getCpuState_eq, Datapath.hardwareRegs]
  simp only [s, hshow.reg, hshow.pc hv]
  unfold snapshot
  congr 1
  · exact hcsr .mtvec
  · exact hcsr .mcause
  · exact hcsr .mstatus
  · exact hcsr .mepc

variable (hfair : Fair fun t => (bus t).rvalid) {dut : ℕ → CpuReg}
  (hdut : Snapshots (fun t => (Clocked.run System.step y₀ bus t).core) dut)
include hfair hdut

/-- Every step takes the snapshot of a state of the machine of the instruction set. -/
theorem Snapshots.eq_snapshot (n : ℕ) : dut (n + 1) = snapshot (isaSeq code y₀.mem.dmem n) := by
  -- The cycle in which instruction `n` is in W.
  obtain ⟨t, hv, rfl⟩ := (System.memRun_step y₀ bus hreset).toCoreRun.exists_inW hfair n
  rw [hdut t hv]
  exact getCpuState_eq_snapshot hreset hprog hv

/-- A comparison with the reference, which has started from a core after reset, fails for the first
time in the step behind an instruction that touches the two CSRs. -/
theorem Snapshots.differs {core : Datapath} (hcore : core.AfterReset) (n : ℕ)
    (hn : ∀ k < n, ¬ Touches (isaSeq code y₀.mem.dmem k) (code (isaSeq code y₀.mem.dmem k).pc)) :
    Differs (isaReference code) dut (startedReference code y₀.mem.dmem core) (n + 2) ↔
      Touches (isaSeq code y₀.mem.dmem n) (code (isaSeq code y₀.mem.dmem n).pc) := by
  have hstart : Exchanged (isaReset y₀.mem.dmem) (startedReference code y₀.mem.dmem core) :=
    exchanged_start hcore y₀.mem.dmem
  have hex := exchanged_run hstart n hn
  rw [Differs, show n + 2 - 1 = n + 1 from rfl,
    Snapshots.eq_snapshot hreset hprog hfair hdut (n + 1), isaSeq_succ]
  change (isaReference code).toDut ((State.step code)^[n + 1] _) ≠ _ ↔ _
  rw [Function.iterate_succ_apply', State.step, hex.pc]
  constructor
  · intro hne
    by_contra ht
    exact hne ((hex.exec ht).toDut_eq code)
  · exact hex.toDut_ne code

end Core

/-- The instructions `csrrs x1, mstatus, x0` and `jal x0, 0`. -/
def readMstatus : Word → SysInstr := fun p =>
  if p = pcRst then .csrrs 1#5 mstatus 0#5 else .base (.jal 0#5 0)

/-- The two instructions at the reset address. -/
def readMstatusMem : Memories :=
  let image := ByteMem.ofWords pcRst [0x300020f3#32, 0x0000006f#32]
  ⟨true, image, image⟩

/-- The program stays at the second instruction. -/
theorem readMstatus_pc (n : ℕ) :
    (isaSeq readMstatus readMstatusMem.dmem (n + 1)).pc = pcRst + 4#32 := by
  induction n with
  | zero => rfl
  | succ n ih =>
    rw [isaSeq_succ, ih]
    generalize isaSeq readMstatus readMstatusMem.dmem (n + 1) = s at *
    have hjal : (s.exec (.base (.jal 0#5 0))).pc = s.pc + ((0 : BitVec 20) ++ 0#1).signExtend 32 :=
      rfl
    rw [show readMstatus (pcRst + 4#32) = .base (.jal 0#5 0) from rfl, hjal, ih]
    decide

/-- The core can execute the program. -/
theorem readMstatus_isaProgram : IsaProgram readMstatus readMstatusMem := by
  have hpc (n : ℕ) : (isaSeq readMstatus readMstatusMem.dmem n).pc = pcRst ∨
      (isaSeq readMstatus readMstatusMem.dmem n).pc = pcRst + 4#32 := by
    cases n with
    | zero => exact .inl rfl
    | succ n => exact .inr (readMstatus_pc n)
  have hnext (n k : ℕ) : readMstatus (isaSeq readMstatus readMstatusMem.dmem (n + k + 1)).pc =
      .base (.jal 0#5 0) := by
    rw [readMstatus_pc]
    rfl
  refine ⟨fun n => ?_, fun n => ?_, fun n => ?_, fun n => ?_, fun n => ?_, fun n k st hst => ?_,
    fun n k _ rd csr _ hrd => ?_, fun n k _ rd csr _ => ?_⟩
  · rcases hpc n with h | h <;> rw [h] <;> decide
  · rcases hpc n with h | h <;> rw [h]
    · exact ⟨.mstatus, rfl⟩
    · trivial
  · rcases hpc n with h | h <;> rw [h] <;> trivial
  · rcases hpc n with h | h <;> rw [h] <;> decide
  · rcases hpc n with h | h <;> rw [h] <;> decide
  · rcases hpc n with h | h <;> rw [h] at hst <;> exact absurd hst (Option.not_mem_none st)
  · rw [hnext] at hrd
    exact absurd hrd List.not_mem_nil
  · rw [hnext]
    exact (Option.some_ne_none csr).symm

end Difftest

end RV32Pipeline
