import RV32Pipeline.Am.Context

/-!
# Context switches on the platform jingyeda

The system is the machine with the contexts that exist in its memory. It moves as threads execute,
make contexts with `kcontext`, and call `yield`: the inline assembly of `yield` enters the trap,
which saves the thread, calls the handler, and resumes the context that the handler returns. Threads
and the handler are arbitrary, but for what the calling convention and the discipline of the stacks
ask of them.

`yield` computes the address that it saves in `mepc` as 32 behind the `auipc`, but the inline
assembly is nine instructions long: 32 behind the `auipc` is its last instruction, the jump to the
trap entry. So a context that a `yield` saved resumes there, and enters the trap again.
-/

namespace RV32Pipeline

namespace Am

open Rv32i

/-- A program with the trap entry and the inline assembly of `yield` in it. -/
structure Platform where
  /-- The program. -/
  code : Word → SysInstr
  /-- The address of `__am_asm_trap`. -/
  amAsmTrap : Word
  /-- The offset from the call in `__am_asm_trap` to `__am_irq_handle`. -/
  handleOffset : BitVec 20
  /-- The address of the inline assembly in `yield`. -/
  yieldAsm : Word
  /-- The trap entry is aligned, by `.align 3`. -/
  aligned : amAsmTrap.extractLsb' 0 3 = 0#3
  loaded_amAsmTrap : Loaded code amAsmTrap (Am.amAsmTrap handleOffset)
  loaded_yieldAsm : Loaded code yieldAsm Am.yieldAsm

namespace Platform

variable (P : Platform)

/-- The address of the instruction behind the inline assembly of `yield`. -/
def yieldEnd : Word := P.yieldAsm + BitVec.ofNat 32 (4 * Am.yieldAsm.length)

/-- The address of `__am_irq_handle`. -/
def amIrqHandle : Word :=
  P.amAsmTrap + BitVec.ofNat 32 (4 * trapSave.length) + (P.handleOffset ++ 0#1).signExtend 32

/-- The address is in the code of the threads: neither the trap entry nor in the inline assembly of
`yield`. -/
def ThreadCode (p : Word) : Prop :=
  p ≠ P.amAsmTrap ∧ ∀ k < Am.yieldAsm.length, p ≠ P.yieldAsm + BitVec.ofNat 32 (4 * k)

end Platform

/-- How a context came to be. -/
inductive Origin where
  /-- A trap saved it, in this state at its entry. -/
  | saved (s : State)
  /-- A call of `kcontext` made it. -/
  | fresh (kstackEnd entry arg : Word)

/-- The machine, and the contexts in its memory by their addresses. -/
structure Sys where
  state : State
  contexts : Word → Option Origin

/-- The contexts with another one put into memory: those that have a byte in common with it are
gone. -/
def addContext (contexts : Word → Option Origin) (c : Word) (o : Origin) : Word → Option Origin :=
  fun c' => if c' = c then some o else if Apart c c' then contexts c' else none

/-- The contexts of the second memory are contexts of the first, and their words are the same. -/
structure Keeps (contexts contexts' : Word → Option Origin) (m m' : ByteMem 32) : Prop where
  subset : ∀ c o, contexts' c = some o → contexts c = some o
  words : ∀ c o, contexts' c = some o → ∀ k < 36, wordAt m' c (k * xlen) = wordAt m c (k * xlen)

/-- A call of `__am_irq_handle` that returns to its caller, leaves the trap vector and the contexts
alone, and returns a context. -/
structure HandlerCall (contexts : Word → Option Origin) (s s' : State) (o : Origin) : Prop where
  pc : s'.pc = s.reg ra
  mtvec : s'.csr mtvec = s.csr mtvec
  words : ∀ c, contexts c ≠ none → ∀ k < 36, wordAt s'.mem c (k * xlen) = wordAt s.mem c (k * xlen)
  result : contexts (s'.reg a0) = some o

/-- The number of instructions of the trap entry up to the call, with the call. -/
def saveSteps : ℕ := trapSave.length + 1

/-- The number of instructions behind the call, with the `mret`. -/
def restoreSteps : ℕ := trapRestore.length + 1

/-- A context that a trap resumed, and the state behind the `mret`. -/
structure Resumption where
  origin : Origin
  state : State

/-- The steps of the system, with the resumptions in them. -/
inductive Step (P : Platform) : Sys → List Resumption → Sys → Prop
  /-- A thread executes until it calls `yield`, and may give up contexts. -/
  | thread {y : Sys} {s : State} {contexts : Word → Option Origin} (hy : P.ThreadCode y.state.pc)
    (hpc : s.pc = P.yieldAsm) (htvec : s.csr mtvec = y.state.csr mtvec)
    (hkeep : Keeps y.contexts contexts y.state.mem s.mem) : Step P y [] ⟨s, contexts⟩
  /-- A thread makes a context. -/
  | kcontext {y : Sys} (kstackEnd entry arg : Word) (hy : P.ThreadCode y.state.pc)
    (hentry : P.ThreadCode entry) :
    Step P y [] ⟨y.state.setMem (kcontext kstackEnd entry arg y.state.mem),
      addContext y.contexts (kcontextAddr kstackEnd) (.fresh kstackEnd entry arg)⟩
  /-- The rest of the inline assembly of `yield`. -/
  | yieldAsm {y : Sys} {k : ℕ} (hk : k < Am.yieldAsm.length)
    (hpc : y.state.pc = P.yieldAsm + BitVec.ofNat 32 (4 * k)) :
    Step P y [] ⟨(State.step P.code)^[Am.yieldAsm.length - k] y.state, y.contexts⟩
  /-- A trap: the code before the call, the handler, and the code behind the call. -/
  | trap {y : Sys} {s : State} {o : Origin} (hpc : y.state.pc = P.amAsmTrap)
    (hcall : HandlerCall (addContext y.contexts (contextAddr y.state) (.saved y.state))
      ((State.step P.code)^[saveSteps] y.state) s o) :
    Step P y [⟨o, (State.step P.code)^[restoreSteps] s⟩]
      ⟨(State.step P.code)^[restoreSteps] s,
        addContext y.contexts (contextAddr y.state) (.saved y.state)⟩

/-- A run of the system from a state in a thread, with `mtvec` at the trap entry and no contexts,
and its resumptions in order. -/
inductive Run (P : Platform) : Sys → List Resumption → Prop
  | init (s : State) (hpc : P.ThreadCode s.pc) (htvec : s.csr mtvec = P.amAsmTrap) :
    Run P ⟨s, fun _ => none⟩ []
  | step {y y' : Sys} {rs rs' : List Resumption} (h : Run P y rs) (hs : Step P y rs' y') :
    Run P y' (rs ++ rs')

/-- A resumption as it should be: a saved context has its registers back and goes on behind the
inline assembly of `yield`, and a fresh one starts at its entry with its argument on an empty
stack. -/
def Resumption.Correct (P : Platform) (r : Resumption) : Prop :=
  match r.origin with
  | .saved s => (∀ q, q ≠ 0#5 → r.state.reg q = s.reg q) ∧ r.state.pc = P.yieldEnd
  | .fresh kstackEnd entry arg =>
    r.state.pc = entry ∧ r.state.reg a0 = arg ∧ r.state.reg sp = kstackEnd

/-- The context is one that `kcontext` made. -/
def Origin.isFresh : Origin → Bool
  | saved _ => false
  | fresh _ _ _ => true

/-! ## The blocks of the program -/

namespace Platform

variable (P : Platform) {s : State}

/-- Clearing bit 0 of the trap vector changes nothing. -/
theorem clear_amAsmTrap : P.amAsmTrap &&& ~~~1#32 = P.amAsmTrap := by
  apply clear_bit_zero
  have h := congrArg (fun b => b.getLsbD 0) P.aligned
  rw [BitVec.getLsbD_extractLsb'] at h
  exact h

/-- The trap entry is not in the inline assembly of `yield`. -/
theorem amAsmTrap_ne {k : ℕ} (hk : k < Am.yieldAsm.length) :
    P.amAsmTrap ≠ P.yieldAsm + BitVec.ofNat 32 (4 * k) := by
  intro h
  have hne : ∀ k (hk : k < Am.yieldAsm.length),
      Am.yieldAsm[k] ≠ addi sp sp (-BitVec.ofNat 12 contextSize) := by decide
  have h1 := P.loaded_amAsmTrap.1
  rw [h, P.loaded_yieldAsm.get hk] at h1
  exact hne k hk h1

/-- The instructions of the inline assembly are at different addresses. -/
theorem yieldAsm_inj {j k : ℕ} (hj : j < Am.yieldAsm.length) (hk : k < Am.yieldAsm.length)
    (h : P.yieldAsm + BitVec.ofNat 32 (4 * j) = P.yieldAsm + BitVec.ofNat 32 (4 * k)) : j = k := by
  have h' := congrArg BitVec.toNat ((BitVec.add_right_inj _).mp h)
  have hl : Am.yieldAsm.length = 9 := rfl
  rw [BitVec.toNat_ofNat, BitVec.toNat_ofNat] at h'
  omega

/-- The machine in the trap entry, up to the call. -/
theorem iterate_trapSave (hpc : s.pc = P.amAsmTrap) : (State.step P.code)^[saveSteps] s =
    (State.execAll trapSave s).exec (.base (.jal ra P.handleOffset)) := by
  apply State.iterate_block straight_trapSave
  rw [hpc]
  exact (Loaded.append.mp P.loaded_amAsmTrap).1

/-- The address of the instruction behind the call. -/
def returnAddr : Word := P.amAsmTrap + BitVec.ofNat 32 (4 * saveSteps)

/-- The machine in the trap entry, behind the call. -/
theorem iterate_trapRestore (hpc : s.pc = P.returnAddr) :
    (State.step P.code)^[restoreSteps] s = (State.execAll trapRestore s).exec .mret := by
  apply State.iterate_block straight_trapRestore
  rw [hpc]
  exact (Loaded.append.mp P.loaded_amAsmTrap).2

/-- The machine in the inline assembly of `yield`. -/
theorem iterate_yieldAsm (hpc : s.pc = P.yieldAsm) :
    (State.step P.code)^[Am.yieldAsm.length] s = (State.execAll yieldSave s).exec jrT2 := by
  apply State.iterate_block straight_yieldSave
  rw [hpc]
  exact P.loaded_yieldAsm

/-- The machine at the last instruction of the inline assembly. -/
theorem step_jrT2 (hpc : s.pc = P.yieldAsm + 32#32) : State.step P.code s = s.exec jrT2 := by
  have h := P.loaded_yieldAsm.get (by decide : 8 < Am.yieldAsm.length)
  rw [State.step, hpc]
  exact congrArg s.exec h

/-- What the trap entry does up to the call: the context is saved, and the handler is called with
its address. -/
theorem saved_saveSteps (hpc : s.pc = P.amAsmTrap) :
    Saved s ((State.step P.code)^[saveSteps] s) ∧
      ((State.step P.code)^[saveSteps] s).pc = P.amIrqHandle ∧
      ((State.step P.code)^[saveSteps] s).reg ra = P.returnAddr := by
  have h := saved_trapSave s
  have hpc' := State.pc_execAll (s := s) straight_trapSave
  rw [P.iterate_trapSave hpc]
  generalize State.execAll trapSave s = s' at h hpc' ⊢
  rw [exec_jal, hpc', hpc]
  refine ⟨⟨?_, ?_, h.csr, h.outside, h.gpr, h.epc⟩, rfl, ?_⟩
  · rw [State.jump_reg, State.setReg_reg_of_ne _ _ (by decide)]
    exact h.a0
  · rw [State.jump_reg, State.setReg_reg_of_ne _ _ (by decide)]
    exact h.sp
  · rw [State.jump_reg, State.setReg_reg_self _ _ _ (by decide), BitVec.add_assoc]
    rfl

end Platform

/-! ## The memory of `kcontext` -/

/-- `memset` of a context leaves the contexts apart from it alone. -/
theorem SameOutside.memset (c : Word) (m : ByteMem 32) :
    SameOutside c m (memset c sizeofContext m) := by
  rintro c' ⟨ha, ha'⟩ k hk
  apply ByteMem.load_congr
  intro b hb
  have h1 : contextSize = 144 := rfl
  have h2 : xlen = 4 := rfl
  have h3 : sizeofContext = 144 := offsets_agree.1.symm
  have hc := c.isLt
  have hc' := c'.isLt
  have hout : ¬ (c' + BitVec.ofNat 32 (k * xlen) + BitVec.ofNat 32 b - c).toNat < sizeofContext := by
    rw [h1, BitVec.toNat_sub] at ha ha'
    rw [h2, h3]
    simp only [BitVec.toNat_sub, BitVec.toNat_add, BitVec.toNat_ofNat]
    omega
  exact if_neg hout

/-- What `kcontext` leaves in memory. -/
theorem kcontext_spec (kstackEnd entry arg : Word) (m : ByteMem 32) :
    let c := kcontextAddr kstackEnd
    SameOutside c m (kcontext kstackEnd entry arg m) ∧
      wordAt (kcontext kstackEnd entry arg m) c offsetEpc = entry ∧
      wordAt (kcontext kstackEnd entry arg m) c (10 * xlen) = arg := by
  intro c
  have hm : kcontext kstackEnd entry arg m =
      storeWord (storeWord (storeWord (memset c sizeofContext m) (c + BitVec.ofNat 32 (33 * xlen))
        0x00001800#32) (c + BitVec.ofNat 32 (34 * xlen)) entry) (c + BitVec.ofNat 32 (10 * xlen))
        arg := rfl
  have hstore (m : ByteMem 32) (data : Word) {j : ℕ} (hj : j < 36) :=
    SameOutside.storeWord (c := c) m data hj
  rw [hm]
  refine ⟨?_, ?_, ?_⟩
  · exact (((SameOutside.memset c m).trans (hstore _ _ (by decide : 33 < 36))).trans
      (hstore _ _ (by decide : 34 < 36))).trans (hstore _ _ (by decide : 10 < 36))
  · rw [show offsetEpc = 34 * xlen from rfl, wordAt_storeWord (by decide) (by decide),
      if_neg (by decide), wordAt_storeWord (by decide) (by decide), if_pos rfl]
  · rw [wordAt_storeWord (by decide) (by decide), if_pos rfl]

/-! ## The invariant -/

/-- The words of a context are what its origin says. A saved one resumes at the last instruction of
the inline assembly of `yield`, with the trap entry in `t2`. -/
def Origin.Intact (P : Platform) (c : Word) (m : ByteMem 32) : Origin → Prop
  | saved s => c = contextAddr s ∧ (∀ r ∈ regs, wordAt m c (r.toNat * xlen) = s.reg r) ∧
    wordAt m c offsetEpc = P.yieldAsm + 32#32 ∧ s.reg t2 = P.amAsmTrap
  | fresh kstackEnd entry arg => c = kcontextAddr kstackEnd ∧ wordAt m c offsetEpc = entry ∧
    wordAt m c (10 * xlen) = arg ∧ P.ThreadCode entry

/-- A context stays intact while its words do. -/
theorem Origin.Intact.congr {P : Platform} {c : Word} {m m' : ByteMem 32} {o : Origin}
    (h : o.Intact P c m) (hm : ∀ k < 36, wordAt m' c (k * xlen) = wordAt m c (k * xlen)) :
    o.Intact P c m' := by
  have hepc : wordAt m' c offsetEpc = wordAt m c offsetEpc := hm 34 (by decide)
  rcases o with s | ⟨top, entry, arg⟩
  · obtain ⟨hc, hr, he, ht⟩ := h
    refine ⟨hc, fun r hrm => ?_, hepc.trans he, ht⟩
    have hlt : r.toNat < 32 := r.isLt
    exact (hm _ (by omega)).trans (hr r hrm)
  · obtain ⟨hc, he, ha, ht⟩ := h
    exact ⟨hc, hepc.trans he, (hm 10 (by decide)).trans ha, ht⟩

/-- The inline assembly of `yield` has set `mepc`, and `t2` holds the trap entry. -/
structure Trapping (P : Platform) (s : State) : Prop where
  t2 : s.reg t2 = P.amAsmTrap
  mepc : s.csr mepc = P.yieldAsm + 32#32

/-- What holds in every state of a run: the trap vector is set, all contexts are intact, and the
machine is in a thread, at the start or at the end of the inline assembly of `yield`, or at the trap
entry. -/
structure Inv (P : Platform) (y : Sys) : Prop where
  mtvec : y.state.csr mtvec = P.amAsmTrap
  contexts : ∀ c o, y.contexts c = some o → o.Intact P c y.state.mem
  pc : P.ThreadCode y.state.pc ∨ y.state.pc = P.yieldAsm ∨
    ((y.state.pc = P.yieldAsm + 32#32 ∨ y.state.pc = P.amAsmTrap) ∧ Trapping P y.state)

/-- Adding a context that is intact, in memory that changed inside it alone, keeps all contexts
intact. -/
theorem intact_addContext {P : Platform} {contexts : Word → Option Origin} {c : Word} {o : Origin}
    {m m' : ByteMem 32} (h : ∀ c o, contexts c = some o → o.Intact P c m)
    (hout : SameOutside c m m') (ho : o.Intact P c m') :
    ∀ c' o', addContext contexts c o c' = some o' → o'.Intact P c' m' := by
  intro c' o' hc'
  unfold addContext at hc'
  split_ifs at hc' with h1 h2
  · obtain rfl := Option.some.inj hc'
    rwa [h1]
  · exact (h c' o' hc').congr fun k hk => hout c' h2 k hk

namespace Inv

variable {P : Platform} {y : Sys}

/-- The state in which a trap is taken. -/
theorem trapping (h : Inv P y) (hpc : y.state.pc = P.amAsmTrap) : Trapping P y.state := by
  rcases h.pc with hp | hp | hp
  · exact absurd hpc hp.1
  · -- The trap entry is not the start of the inline assembly.
    have hne := P.amAsmTrap_ne (by decide : 0 < Am.yieldAsm.length)
    rw [show P.yieldAsm + BitVec.ofNat 32 (4 * 0) = P.yieldAsm from BitVec.add_zero _] at hne
    exact absurd (hpc.symm.trans hp) hne
  · exact hp.2

/-- The rest of the inline assembly enters the trap. -/
theorem yieldAsm (h : Inv P y) {k : ℕ} (hk : k < Am.yieldAsm.length)
    (hpc : y.state.pc = P.yieldAsm + BitVec.ofNat 32 (4 * k)) :
    Inv P ⟨(State.step P.code)^[Am.yieldAsm.length - k] y.state, y.contexts⟩ := by
  have hzero : P.yieldAsm + BitVec.ofNat 32 (4 * 0) = P.yieldAsm := BitVec.add_zero _
  rcases h.pc with hp | hp | ⟨hp | hp, htr⟩
  · exact absurd hpc (hp.2 k hk)
  · -- From the start.
    have hk0 : k = 0 := P.yieldAsm_inj hk (by decide) (hpc.symm.trans (hp.trans hzero.symm))
    obtain ⟨hpc', ht2, hmem, htvec, hepc⟩ := exec_yieldAsm y.state
    rw [hk0, Nat.sub_zero, P.iterate_yieldAsm hp]
    rw [hp] at hepc
    rw [h.mtvec] at hpc' ht2 htvec
    rw [P.clear_amAsmTrap] at hpc'
    refine ⟨htvec, fun c o hc => ?_, .inr (.inr ⟨.inr hpc', ht2, hepc⟩)⟩
    show o.Intact P c ((State.execAll yieldSave y.state).exec jrT2).mem
    rw [hmem]
    exact h.contexts c o hc
  · -- From the jump alone.
    have hk8 : k = 8 := P.yieldAsm_inj hk (by decide) (hpc.symm.trans hp)
    have hstep : (State.step P.code)^[Am.yieldAsm.length - k] y.state = y.state.exec jrT2 := by
      rw [hk8]
      exact P.step_jrT2 hp
    rw [hstep, exec_jrT2]
    refine ⟨h.mtvec, h.contexts, .inr (.inr ⟨.inr ?_, ?_, htr.mepc⟩)⟩
    · show y.state.reg Am.t2 &&& ~~~1#32 = _
      rw [htr.t2, P.clear_amAsmTrap]
    · show ((y.state.setReg 0#5 _).jump _).reg Am.t2 = _
      rw [State.jump_reg, State.setReg_reg_of_ne _ _ (by decide)]
      exact htr.t2
  · exact absurd (hp.symm.trans hpc) (P.amAsmTrap_ne hk)

/-- What a trap resumes. A saved context has its registers back, and is at the last instruction of
the inline assembly; a fresh one is as it should be. -/
def Resumes (P : Platform) (s' : State) : Origin → Prop
  | .saved s => (∀ q, q ≠ 0#5 → s'.reg q = s.reg q) ∧ s'.pc = P.yieldAsm + 32#32
  | .fresh kstackEnd entry arg =>
    s'.pc = entry ∧ s'.reg a0 = arg ∧ s'.reg sp = kstackEnd

/-- A trap resumes the context that the handler returns, and leaves the invariant intact. -/
theorem trap (h : Inv P y) (hpc : y.state.pc = P.amAsmTrap) {s : State} {o : Origin}
    (hcall : HandlerCall (addContext y.contexts (contextAddr y.state) (.saved y.state))
      ((State.step P.code)^[saveSteps] y.state) s o) :
    Resumes P ((State.step P.code)^[restoreSteps] s) o ∧
      Inv P ⟨(State.step P.code)^[restoreSteps] s,
        addContext y.contexts (contextAddr y.state) (.saved y.state)⟩ := by
  obtain ⟨hsaved, -, hra⟩ := P.saved_saveSteps hpc
  have htr := h.trapping hpc
  -- The context of the trap is intact, and so are the others, through the handler.
  have hself : (Origin.saved y.state).Intact P (contextAddr y.state)
      ((State.step P.code)^[saveSteps] y.state).mem :=
    ⟨rfl, hsaved.gpr, hsaved.epc.trans htr.mepc, htr.t2⟩
  have hall : ∀ c o, addContext y.contexts (contextAddr y.state) (.saved y.state) c = some o →
      o.Intact P c s.mem := fun c o hc =>
    (intact_addContext h.contexts hsaved.outside hself c o hc).congr
      (hcall.words c (by rw [hc]; exact Option.some_ne_none o))
  -- The handler returns behind the call, and the rest of the trap entry runs.
  have hreturn : s.pc = P.returnAddr := hcall.pc.trans hra
  have hr := restored_trapRestore s
  rw [← P.iterate_trapRestore hreturn] at hr
  have htvec : ((State.step P.code)^[restoreSteps] s).csr Rv32i.mtvec = P.amAsmTrap := by
    rw [hr.mtvec, hcall.mtvec, hsaved.csr]
    exact h.mtvec
  have hmem : ∀ c o, addContext y.contexts (contextAddr y.state) (.saved y.state) c = some o →
      o.Intact P c ((State.step P.code)^[restoreSteps] s).mem := by
    rw [hr.mem]
    exact hall
  have ho := hall _ _ hcall.result
  generalize (State.step P.code)^[restoreSteps] s = s' at hr htvec hmem ⊢
  rcases o with q | ⟨kstackEnd, entry, arg⟩
  · -- A context that a trap saved. `sp` is the end of the context, and `x0` is not saved.
    obtain ⟨hc, hgpr, hepc, ht2⟩ := ho
    have hreg : ∀ r, r ≠ 0#5 → s'.reg r = q.reg r := by
      intro r hr0
      by_cases hsp : r = Am.sp
      · rw [hsp, hr.sp, hc, contextAddr, BitVec.sub_add_cancel]
      · have hrm := (mem_regs_iff r).mpr ⟨hr0, hsp⟩
        exact (hr.gpr r hrm).trans (hgpr r hrm)
    refine ⟨⟨hreg, hr.pc.trans hepc⟩, htvec, hmem, .inr (.inr ⟨.inl (hr.pc.trans hepc), ?_, ?_⟩)⟩
    · exact (hreg Am.t2 (by decide)).trans ht2
    · exact hr.mepc.trans hepc
  · -- A context of `kcontext`, at the end of its stack.
    obtain ⟨hc, hepc, harg, hentry⟩ := ho
    refine ⟨⟨hr.pc.trans hepc, (hr.gpr Am.a0 (by decide)).trans harg, ?_⟩, htvec, hmem, .inl ?_⟩
    · rw [hr.sp, hc, kcontextAddr]
      exact BitVec.sub_add_cancel _ _
    · show P.ThreadCode s'.pc
      rw [hr.pc, hepc]
      exact hentry

/-- Every step keeps the invariant, and resumes contexts so. -/
theorem step (h : Inv P y) {y' : Sys} {rs : List Resumption} (hs : Step P y rs y') :
    Inv P y' ∧ ∀ r ∈ rs, Resumes P r.state r.origin := by
  rcases hs with ⟨hy, hpc, htvec, hkeep⟩ | ⟨kstackEnd, entry, arg, hy, hentry⟩ | ⟨hk, hpc⟩ |
    ⟨hpc, hcall⟩
  · -- A thread executes, and leaves the contexts alone.
    refine ⟨⟨htvec.trans h.mtvec, fun c o hc => ?_, .inr (.inl hpc)⟩, by simp⟩
    exact (h.contexts c o (hkeep.subset c o hc)).congr (hkeep.words c o hc)
  · -- A new context, which may lie where an old one has been.
    obtain ⟨hout, hepc, harg⟩ := kcontext_spec kstackEnd entry arg y.state.mem
    refine ⟨⟨h.mtvec, ?_, .inl hy⟩, by simp⟩
    exact intact_addContext h.contexts hout ⟨rfl, hepc, harg, hentry⟩
  · -- The inline assembly resumes nothing.
    exact ⟨h.yieldAsm hk hpc, by simp⟩
  · obtain ⟨hres, hinv⟩ := h.trap hpc hcall
    exact ⟨hinv, fun r hr => by rw [List.mem_singleton.mp hr]; exact hres⟩

end Inv

/-- The invariant holds along every run, and every context is resumed so. -/
theorem Run.inv {P : Platform} {y : Sys} {rs : List Resumption} (h : Run P y rs) :
    Inv P y ∧ ∀ r ∈ rs, Inv.Resumes P r.state r.origin := by
  induction h with
  | init s hpc htvec =>
    refine ⟨⟨htvec, fun c o hc => ?_, .inl hpc⟩, by simp⟩
    exact absurd hc.symm (Option.some_ne_none o)
  | step h hs ih =>
    obtain ⟨hinv, hrs⟩ := ih.1.step hs
    refine ⟨hinv, fun r hr => ?_⟩
    rcases List.mem_append.mp hr with hr | hr
    · exact ih.2 r hr
    · exact hrs r hr

/-- The last instruction of the inline assembly is not behind it. -/
theorem Platform.yieldEnd_ne (P : Platform) : P.yieldAsm + 32#32 ≠ P.yieldEnd := by
  intro h
  have h' := (BitVec.add_right_inj _).mp h
  exact absurd h' (by decide)

/-- A context is resumed as it should be if and only if `kcontext` made it. -/
theorem Inv.Resumes.correct_iff {P : Platform} {r : Resumption} (h : Inv.Resumes P r.state r.origin) :
    r.Correct P ↔ r.origin.isFresh = true := by
  rcases r with ⟨o | ⟨kstackEnd, entry, arg⟩, s'⟩
  · obtain ⟨-, hpc⟩ := h
    constructor
    · rintro ⟨-, hend⟩
      exact absurd (hpc.symm.trans hend) P.yieldEnd_ne
    · exact fun hf => absurd hf Bool.false_ne_true
  · exact ⟨fun _ => rfl, fun _ => h⟩

/-- In every run, every resumption is as it should be if and only if the handler never returns a
context that a trap saved: fresh contexts start right, and a saved one gets all its registers back
but enters the trap again instead of returning from `yield`. -/
theorem resumptions_correct_iff {P : Platform} {y : Sys} {rs : List Resumption} (h : Run P y rs) :
    (∀ r ∈ rs, r.Correct P) ↔ ∀ r ∈ rs, r.origin.isFresh = true :=
  forall₂_congr fun r hr => (h.inv.2 r hr).correct_iff

/-! ## A thread that yields to itself -/

/-- A handler that returns its argument at once. -/
theorem handlerCall_self (P : Platform) (contexts : Word → Option Origin) {s : State}
    (hpc : s.pc = P.amAsmTrap) :
    HandlerCall (addContext contexts (contextAddr s) (.saved s)) ((State.step P.code)^[saveSteps] s)
      (((State.step P.code)^[saveSteps] s).jump P.returnAddr) (.saved s) := by
  obtain ⟨hsaved, -, hra⟩ := P.saved_saveSteps hpc
  generalize (State.step P.code)^[saveSteps] s = s' at hsaved hra ⊢
  refine ⟨hra.symm, rfl, fun _ _ _ _ => rfl, ?_⟩
  rw [State.jump_reg, hsaved.a0]
  exact if_pos rfl

/-- A thread that calls `yield` at once reaches the trap entry. -/
theorem Run.yield {P : Platform} {s : State} {contexts : Word → Option Origin}
    {rs : List Resumption} (h : Run P ⟨s, contexts⟩ rs) (hpc : P.ThreadCode s.pc) :
    Run P ⟨(State.step P.code)^[Am.yieldAsm.length] (s.jump P.yieldAsm), contexts⟩ rs := by
  have h1 := h.step (.thread (s := s.jump P.yieldAsm) hpc rfl rfl
    ⟨fun _ _ => id, fun _ _ _ _ _ => rfl⟩)
  have h2 := h1.step (.yieldAsm (k := 0) (by decide) (BitVec.add_zero _).symm)
  rwa [List.append_nil, List.append_nil] at h2

/-- A trap whose handler returns its argument. -/
theorem Run.trap_self {P : Platform} {s : State} {contexts : Word → Option Origin}
    {rs : List Resumption} (h : Run P ⟨s, contexts⟩ rs) (hpc : s.pc = P.amAsmTrap) :
    Run P ⟨(State.step P.code)^[restoreSteps]
        (((State.step P.code)^[saveSteps] s).jump P.returnAddr),
      addContext contexts (contextAddr s) (.saved s)⟩
      (rs ++ [⟨.saved s, (State.step P.code)^[restoreSteps]
        (((State.step P.code)^[saveSteps] s).jump P.returnAddr)⟩]) :=
  h.step (.trap hpc (handlerCall_self P contexts hpc))

/-- A program with the trap entry at `0x1000` and the inline assembly of `yield` at `0x2000`. -/
def selfCode (p : Word) : SysInstr :=
  if (p - 0x1000#32).toNat / 4 < (amAsmTrap 0x800#20).length then
    (amAsmTrap 0x800#20).getD ((p - 0x1000#32).toNat / 4) .mret
  else Am.yieldAsm.getD ((p - 0x2000#32).toNat / 4) .mret

/-- The platform with this program. -/
def selfPlatform : Platform where
  code := selfCode
  amAsmTrap := 0x1000#32
  handleOffset := 0x800#20
  yieldAsm := 0x2000#32
  aligned := rfl
  loaded_amAsmTrap := by decide +kernel
  loaded_yieldAsm := by decide +kernel

/-- A thread on an empty stack. -/
def selfThread : State :=
  ⟨0x80000000#32, fun _ => 0x80010000#32, fun _ => 0#8, fun _ => 0x1000#32⟩

/-- The thread at the trap entry, after its call of `yield`. -/
def selfTrap : State :=
  (State.step selfPlatform.code)^[Am.yieldAsm.length] (selfThread.jump 0x2000#32)

/-- The thread behind the trap. -/
def selfResumed : State :=
  (State.step selfPlatform.code)^[restoreSteps]
    (((State.step selfPlatform.code)^[saveSteps] selfTrap).jump selfPlatform.returnAddr)

/-- The run in which the thread yields, and the handler returns its context. -/
theorem selfRun : Run selfPlatform ⟨selfResumed, addContext (fun _ => none) (contextAddr selfTrap)
    (.saved selfTrap)⟩ [⟨.saved selfTrap, selfResumed⟩] := by
  have hthread : selfPlatform.ThreadCode 0x80000000#32 := by
    unfold Platform.ThreadCode
    decide
  have h0 : Run selfPlatform ⟨selfThread, fun _ => none⟩ [] := .init _ hthread rfl
  -- The call of `yield` ends at the trap entry.
  have hpc : selfTrap.pc = selfPlatform.amAsmTrap := by
    have hy : (selfThread.jump 0x2000#32).pc = selfPlatform.yieldAsm := rfl
    rw [selfTrap, selfPlatform.iterate_yieldAsm hy, (exec_yieldAsm _).1]
    rfl
  exact (h0.yield hthread).trap_self hpc

/-- The thread is not resumed behind its call of `yield`. -/
theorem selfRun_incorrect : Run selfPlatform ⟨selfResumed, addContext (fun _ => none)
      (contextAddr selfTrap) (.saved selfTrap)⟩ [⟨.saved selfTrap, selfResumed⟩] ∧
    ¬ Resumption.Correct selfPlatform ⟨.saved selfTrap, selfResumed⟩ := by
  refine ⟨selfRun, fun h => ?_⟩
  have hres := selfRun.inv.2 _ List.mem_cons_self
  exact absurd (hres.correct_iff.mp h) Bool.false_ne_true

/-- The equivalence for this run. -/
theorem resumptions_correct_iff_self :
    (∀ r ∈ [(⟨.saved selfTrap, selfResumed⟩ : Resumption)], r.Correct selfPlatform) ↔
      ∀ r ∈ [(⟨.saved selfTrap, selfResumed⟩ : Resumption)], r.origin.isFresh = true :=
  resumptions_correct_iff selfRun

end Am

end RV32Pipeline
