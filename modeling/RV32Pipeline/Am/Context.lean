import RV32Pipeline.Lib.Rv32iMachine

/-!
# Contexts on the platform jingyeda

`kcontext` and `yield` of `cte.c`, and the trap entry of `trap.S`, for `rv32i_zicsr`: 32 registers
of four bytes. The code of the trap entry is in two parts, around the call of `__am_irq_handle`. The
block lemmas say what each part does to the registers, to the CSRs, and to the words of a context.
-/

namespace RV32Pipeline

namespace Am

open Rv32i

/-! ## The layout of a context -/

/-- The constant `NR_REGS`. -/
def nrRegs : ℕ := 32

/-- The constant `XLEN`. -/
def xlen : ℕ := 4

/-- The sizes of the fields of `struct Context`: `gpr`, `mcause`, `mstatus`, `mepc`, and `pdir`. -/
def contextFields : List ℕ := [nrRegs * 4, 4, 4, 4, 4]

/-- The offset of a field of `struct Context`. -/
def offsetOf (field : ℕ) : ℕ := (contextFields.take field).sum

/-- The size of `struct Context`. -/
def sizeofContext : ℕ := contextFields.sum

/-- The constant `CONTEXT_SIZE` of `trap.S`. -/
def contextSize : ℕ := (nrRegs + 3 + 1) * xlen

/-- The constant `OFFSET_CAUSE`. -/
def offsetCause : ℕ := (nrRegs + 0) * xlen

/-- The constant `OFFSET_STATUS`. -/
def offsetStatus : ℕ := (nrRegs + 1) * xlen

/-- The constant `OFFSET_EPC`. -/
def offsetEpc : ℕ := (nrRegs + 2) * xlen

/-- The assembly and the C code agree on the layout. -/
theorem offsets_agree : contextSize = sizeofContext ∧ offsetCause = offsetOf 1 ∧
    offsetStatus = offsetOf 2 ∧ offsetEpc = offsetOf 3 := ⟨rfl, rfl, rfl, rfl⟩

/-- The word at an offset from an address. -/
def wordAt (m : ByteMem 32) (c : Word) (offset : ℕ) : Word := m.load (c + BitVec.ofNat 32 offset)

/-- The function `memset` with zeros. -/
def memset (c : Word) (size : ℕ) (m : ByteMem 32) : ByteMem 32 :=
  fun x => if (x - c).toNat < size then 0#8 else m x

/-- The store of a word. -/
def storeWord (m : ByteMem 32) (a data : Word) : ByteMem 32 := m.store a data 0b1111#4

/-- The address that `kcontext` returns. -/
def kcontextAddr (kstackEnd : Word) : Word := kstackEnd - BitVec.ofNat 32 sizeofContext

/-- The memory after `kcontext`. -/
def kcontext (kstackEnd entry arg : Word) (m : ByteMem 32) : ByteMem 32 :=
  let c := kcontextAddr kstackEnd
  let m := memset c sizeofContext m
  let m := storeWord m (c + BitVec.ofNat 32 (offsetOf 2)) 0x00001800#32
  let m := storeWord m (c + BitVec.ofNat 32 (offsetOf 3)) entry
  storeWord m (c + BitVec.ofNat 32 (10 * 4)) arg

/-! ## The code -/

/-- The return address. -/
def ra : Reg := 1#5

/-- The stack pointer. -/
def sp : Reg := 2#5

/-- The register `t0`. -/
def t0 : Reg := 5#5

/-- The register `t1`. -/
def t1 : Reg := 6#5

/-- The register `t2`. -/
def t2 : Reg := 7#5

/-- The first argument, and the result. -/
def a0 : Reg := 10#5

/-- The instruction `addi`. -/
def addi (rd rs1 : Reg) (imm : BitVec 12) : SysInstr := .base (.opImm .addi rd rs1 imm)

/-- The instruction `lw`, with an offset from a register. -/
def lw (rd : Reg) (offset : ℕ) (rs1 : Reg) : SysInstr :=
  .base (.load .lw rd rs1 (BitVec.ofNat 12 offset))

/-- The instruction `sw`, with an offset from a register. -/
def sw (rs2 : Reg) (offset : ℕ) (rs1 : Reg) : SysInstr :=
  .base (.store .sw rs1 rs2 (BitVec.ofNat 12 offset))

/-- The pseudo-instruction `csrr`. -/
def csrr (rd : Reg) (csr : BitVec 12) : SysInstr := .csrrs rd csr 0#5

/-- The pseudo-instruction `csrw`. -/
def csrw (csr : BitVec 12) (rs : Reg) : SysInstr := .csrrw 0#5 csr rs

/-- The macro `PUSH`. -/
def push (n : Reg) : SysInstr := sw n (n.toNat * xlen) sp

/-- The macro `POP`. -/
def pop (n : Reg) : SysInstr := lw n (n.toNat * xlen) sp

/-- The macro `REGS_LO16`: `x2` is left out. -/
def regsLo16 : List Reg :=
  [1#5, 3#5, 4#5, 5#5, 6#5, 7#5, 8#5, 9#5, 10#5, 11#5, 12#5, 13#5, 14#5, 15#5]

/-- The macro `REGS_HI16`. -/
def regsHi16 : List Reg :=
  [16#5, 17#5, 18#5, 19#5, 20#5, 21#5, 22#5, 23#5, 24#5, 25#5, 26#5, 27#5, 28#5, 29#5, 30#5, 31#5]

/-- The macro `REGS`. -/
def regs : List Reg := regsLo16 ++ regsHi16

/-- The part of `__am_asm_trap` before the call. -/
def trapSave : List SysInstr :=
  addi sp sp (-BitVec.ofNat 12 contextSize) :: regs.map push ++
    [csrr t0 mcause, csrr t1 mstatus, csrr t2 mepc, sw t0 offsetCause sp, sw t1 offsetStatus sp,
      sw t2 offsetEpc sp, addi a0 sp 0#12]

/-- The part of `__am_asm_trap` behind the call, but for the `mret` at its end. -/
def trapRestore : List SysInstr :=
  [addi sp a0 0#12, lw t1 offsetStatus sp, lw t2 offsetEpc sp, csrw mstatus t1, csrw mepc t2] ++
    regs.map pop ++ [addi sp sp (BitVec.ofNat 12 contextSize)]

/-- The code of `__am_asm_trap`, with the offset of `__am_irq_handle` from the call. -/
def amAsmTrap (offset : BitVec 20) : List SysInstr :=
  trapSave ++ [.base (.jal ra offset)] ++ (trapRestore ++ [.mret])

/-- The inline assembly of `yield`, but for the jump at its end. -/
def yieldSave : List SysInstr :=
  [.base (.auipc t0 0#20), addi t0 t0 32#12, csrw mepc t0, addi t1 0#5 11#12, csrw mcause t1,
    csrr t2 mtvec, addi 0#5 0#5 0#12, addi 0#5 0#5 0#12]

/-- The instruction `jr t2`. -/
def jrT2 : SysInstr := .base (.jalr 0#5 t2 0#12)

/-- The inline assembly of `yield`. -/
def yieldAsm : List SysInstr := yieldSave ++ [jrT2]

/-! ## Single instructions -/

section Exec

variable (s : State)

theorem exec_addi (rd rs1 : Reg) (imm : BitVec 12) :
    s.exec (addi rd rs1 imm) = (s.setReg rd (s.reg rs1 + imm.signExtend 32)).next := rfl

theorem exec_lw (rd rs1 : Reg) (offset : ℕ) : s.exec (lw rd offset rs1) =
    (s.setReg rd (s.mem.load (s.reg rs1 + (BitVec.ofNat 12 offset).signExtend 32))).next := rfl

theorem exec_sw (rs2 rs1 : Reg) (offset : ℕ) : s.exec (sw rs2 offset rs1) =
    (s.setMem (storeWord s.mem (s.reg rs1 + (BitVec.ofNat 12 offset).signExtend 32)
      (s.reg rs2))).next := rfl

theorem exec_csrr (rd : Reg) (csr : BitVec 12) :
    s.exec (csrr rd csr) = (s.setReg rd (s.csr csr)).next := by
  have hor : s.csr csr ||| s.reg 0#5 = s.csr csr := by
    rw [State.reg_zero]
    exact BitVec.or_zero
  show ((s.setReg rd (s.csr csr)).setCsr csr (s.csr csr ||| s.reg 0#5)).next = _
  rw [hor, State.setCsr, State.setReg_csr, Function.update_eq_self]
  rfl

theorem exec_auipc (rd : Reg) (imm : BitVec 20) :
    s.exec (.base (.auipc rd imm)) = (s.setReg rd (s.pc + (imm ++ 0#12))).next := rfl

theorem exec_jal (rd : Reg) (imm : BitVec 20) : s.exec (.base (.jal rd imm)) =
    (s.setReg rd (s.pc + 4#32)).jump (s.pc + (imm ++ 0#1).signExtend 32) := rfl

theorem exec_jrT2 :
    s.exec jrT2 = (s.setReg 0#5 (s.pc + 4#32)).jump (s.reg t2 &&& ~~~1#32) := by
  have h0 : s.reg t2 + (0#12).signExtend 32 = s.reg t2 := BitVec.add_zero _
  show (s.setReg 0#5 (s.pc + 4#32)).jump ((s.reg t2 + (0#12).signExtend 32) &&& ~~~1#32) = _
  rw [h0]

theorem exec_csrw (csr : BitVec 12) (rs : Reg) : s.exec (csrw csr rs) =
    ((s.setReg 0#5 (s.csr csr)).setCsr csr (s.reg rs)).next := rfl

/-- An offset in a context is positive as an immediate. -/
theorem signExtend_offset {k : ℕ} (hk : k < 36) :
    (BitVec.ofNat 12 (k * xlen)).signExtend 32 = BitVec.ofNat 32 (k * xlen) := by
  revert k
  decide

end Exec

/-! ## The words of a context -/

/-- The contexts at two addresses have no byte in common. -/
def Apart (c c' : Word) : Prop := contextSize ≤ (c - c').toNat ∧ contextSize ≤ (c' - c).toNat

instance (c c' : Word) : Decidable (Apart c c') := inferInstanceAs (Decidable (_ ∧ _))

/-- A store to a word of a context changes this word alone in it. -/
theorem wordAt_storeWord {m : ByteMem 32} {c data : Word} {j k : ℕ} (hj : j < 36) (hk : k < 36) :
    wordAt (storeWord m (c + BitVec.ofNat 32 (j * xlen)) data) c (k * xlen) =
      if j = k then data else wordAt m c (k * xlen) :=
  ByteMem.load_store_offset (by omega) (by omega)

/-- The memories agree on all contexts apart from the one at `c`. -/
def SameOutside (c : Word) (m m' : ByteMem 32) : Prop :=
  ∀ c', Apart c c' → ∀ k < 36, wordAt m' c' (k * xlen) = wordAt m c' (k * xlen)

namespace SameOutside

variable {c : Word} {m m' m'' : ByteMem 32}

theorem refl (c : Word) (m : ByteMem 32) : SameOutside c m m := fun _ _ _ _ => rfl

theorem trans (h : SameOutside c m m') (h' : SameOutside c m' m'') : SameOutside c m m'' :=
  fun c' ha k hk => (h' c' ha k hk).trans (h c' ha k hk)

/-- A store to a word of the context changes no other context. -/
theorem storeWord (m : ByteMem 32) (data : Word) {j : ℕ} (hj : j < 36) :
    SameOutside c m (storeWord m (c + BitVec.ofNat 32 (j * xlen)) data) := by
  rintro c' ⟨ha, ha'⟩ k hk
  apply ByteMem.load_store_of_not_overlaps
  have h1 : contextSize = 144 := rfl
  have h2 : xlen = 4 := rfl
  rw [h1] at ha ha'
  rw [h2]
  have hc := c.isLt
  have hc' := c'.isLt
  rw [BitVec.toNat_sub] at ha ha'
  apply ByteMem.not_overlaps_of_apart <;>
    · simp only [BitVec.toNat_sub, BitVec.toNat_add, BitVec.toNat_ofNat]
      omega

end SameOutside

/-! ## The blocks of stores and loads -/

/-- A run of `PUSH` stores its registers into the context at `sp`, and nothing else. -/
theorem execAll_push (l : List Reg) (s : State) :
    (State.execAll (l.map push) s).regs = s.regs ∧ (State.execAll (l.map push) s).csr = s.csr ∧
      SameOutside (s.reg sp) s.mem (State.execAll (l.map push) s).mem ∧
      ∀ k < 36, wordAt (State.execAll (l.map push) s).mem (s.reg sp) (k * xlen) =
        if ∃ r ∈ l, r.toNat = k then s.reg (BitVec.ofNat 5 k)
        else wordAt s.mem (s.reg sp) (k * xlen) := by
  induction l generalizing s with
  | nil =>
    refine ⟨rfl, rfl, .refl _ _, fun k _ => ?_⟩
    rw [if_neg (by simp)]
    rfl
  | cons r l ih =>
    have hr := r.isLt
    -- The first store, and the others after it.
    have hexec : s.exec (push r) = (s.setMem (storeWord s.mem
        (s.reg sp + BitVec.ofNat 32 (r.toNat * xlen)) (s.reg r))).next := by
      rw [push, exec_sw, signExtend_offset (by omega)]
    obtain ⟨hregs, hcsr, hout, hmem⟩ := ih (s.exec (push r))
    have hreg (q : Reg) : (s.exec (push r)).reg q = s.reg q := by rw [hexec]; rfl
    rw [List.map_cons, State.execAll_cons]
    rw [hreg] at hout hmem
    refine ⟨hregs.trans (by rw [hexec]; rfl), hcsr.trans (by rw [hexec]; rfl), ?_, fun k hk => ?_⟩
    · refine SameOutside.trans ?_ hout
      rw [hexec]
      exact .storeWord _ _ (by omega)
    · rw [hmem k hk, hreg]
      -- The last store to a word decides; all stores to it are of the same register.
      by_cases hl : ∃ q ∈ l, q.toNat = k
      · obtain ⟨q, hq, hqk⟩ := hl
        rw [if_pos ⟨q, hq, hqk⟩, if_pos ⟨q, List.mem_cons_of_mem r hq, hqk⟩]
      · rw [if_neg hl, hexec]
        show wordAt (storeWord s.mem _ _) _ _ = _
        rw [wordAt_storeWord (by omega) hk]
        by_cases hrk : r.toNat = k
        · have hrk' : BitVec.ofNat 5 k = r := by
            rw [← hrk, BitVec.ofNat_toNat, BitVec.setWidth_eq]
          rw [if_pos hrk, if_pos ⟨r, List.mem_cons_self, hrk⟩, hrk']
        · rw [if_neg hrk, if_neg]
          rintro ⟨q, hq, hqk⟩
          rcases List.mem_cons.mp hq with rfl | hq
          · exact hrk hqk
          · exact hl ⟨q, hq, hqk⟩

/-- A run of `POP` without `x2` loads its registers from the context at `sp`, and nothing else. -/
theorem execAll_pop (l : List Reg) (hsp : sp ∉ l) (s : State) :
    (State.execAll (l.map pop) s).mem = s.mem ∧ (State.execAll (l.map pop) s).csr = s.csr ∧
      ∀ r, (State.execAll (l.map pop) s).regs r =
        if r ∈ l then wordAt s.mem (s.reg sp) (r.toNat * xlen) else s.regs r := by
  induction l generalizing s with
  | nil => exact ⟨rfl, rfl, fun r => (if_neg List.not_mem_nil).symm⟩
  | cons q l ih =>
    have hq := q.isLt
    have hqsp : sp ≠ q := fun h => hsp (h ▸ List.mem_cons_self)
    have hexec : s.exec (pop q) =
        (s.setReg q (wordAt s.mem (s.reg sp) (q.toNat * xlen))).next := by
      rw [pop, exec_lw, signExtend_offset (by omega)]
      rfl
    obtain ⟨hmem, hcsr, hregs⟩ := ih (fun h => hsp (List.mem_cons_of_mem q h)) (s.exec (pop q))
    -- `sp` is not loaded, so all loads are from the same context.
    have hreg : (s.exec (pop q)).reg sp = s.reg sp := by
      rw [hexec, State.next_reg, State.setReg_reg_of_ne _ _ hqsp]
    rw [List.map_cons, State.execAll_cons]
    refine ⟨hmem.trans (by rw [hexec]; rfl), hcsr.trans (by rw [hexec]; rfl), fun r => ?_⟩
    rw [hregs r, hreg]
    have hm : (s.exec (pop q)).mem = s.mem := by rw [hexec]; rfl
    have hr : (s.exec (pop q)).regs r =
        Function.update s.regs q (wordAt s.mem (s.reg sp) (q.toNat * xlen)) r := by rw [hexec]; rfl
    rw [hm, hr]
    -- The last load of a register decides; all of them are of the same word.
    by_cases hrl : r ∈ l
    · rw [if_pos hrl, if_pos (List.mem_cons_of_mem q hrl)]
    · rw [if_neg hrl]
      by_cases hrq : r = q
      · rw [hrq, Function.update_self, if_pos List.mem_cons_self]
      · rw [Function.update_of_ne hrq, if_neg]
        exact fun h => (List.mem_cons.mp h).elim hrq hrl

/-! ## The trap entry -/

/-- The registers that a context saves are all but `x0` and `x2`. -/
theorem mem_regs_iff (r : Reg) : r ∈ regs ↔ r ≠ 0#5 ∧ r ≠ sp := by
  revert r
  decide

/-- Every instruction before the call goes on to the next. -/
theorem straight_trapSave : ∀ i ∈ trapSave, i.straight = true := by decide

/-- So does every instruction behind it, but for the `mret`. -/
theorem straight_trapRestore : ∀ i ∈ trapRestore, i.straight = true := by decide

/-- The address of the context that a trap in this state saves. -/
def contextAddr (s : State) : Word := s.reg sp - BitVec.ofNat 32 contextSize

/-- The part of `__am_asm_trap` before the call puts the registers and `mepc` into the context below
the stack, passes its address, and changes no other context. -/
structure Saved (s s' : State) : Prop where
  a0 : s'.reg a0 = contextAddr s
  sp : s'.reg sp = contextAddr s
  csr : s'.csr = s.csr
  outside : SameOutside (contextAddr s) s.mem s'.mem
  gpr : ∀ r ∈ regs, wordAt s'.mem (contextAddr s) (r.toNat * xlen) = s.reg r
  epc : wordAt s'.mem (contextAddr s) offsetEpc = s.csr mepc

/-- The end of this part stores the three CSRs, and passes the stack pointer. -/
theorem execAll_saveCsrs (s : State) :
    let s' := State.execAll [csrr t0 mcause, csrr t1 mstatus, csrr t2 mepc, sw t0 offsetCause sp,
      sw t1 offsetStatus sp, sw t2 offsetEpc sp, addi a0 sp 0#12] s
    s'.reg a0 = s.reg sp ∧ s'.reg sp = s.reg sp ∧ s'.csr = s.csr ∧
      s'.mem = storeWord (storeWord (storeWord s.mem (s.reg sp + BitVec.ofNat 32 (32 * xlen))
        (s.csr mcause)) (s.reg sp + BitVec.ofNat 32 (33 * xlen)) (s.csr mstatus))
        (s.reg sp + BitVec.ofNat 32 (34 * xlen)) (s.csr mepc) := by
  have h32 : (BitVec.ofNat 12 offsetCause).signExtend 32 = BitVec.ofNat 32 (32 * xlen) := rfl
  have h33 : (BitVec.ofNat 12 offsetStatus).signExtend 32 = BitVec.ofNat 32 (33 * xlen) := rfl
  have h34 : (BitVec.ofNat 12 offsetEpc).signExtend 32 = BitVec.ofNat 32 (34 * xlen) := rfl
  have h0 : (0#12).signExtend 32 = 0#32 := rfl
  simp (disch := decide) only [State.execAll_cons, State.execAll_nil, exec_csrr, exec_sw, exec_addi,
    h32, h33, h34, h0, BitVec.add_zero, State.next_reg, State.next_mem, State.next_csr,
    State.setMem_reg, State.setMem_mem, State.setMem_csr, State.setReg_mem, State.setReg_csr,
    State.setReg_reg_self, State.setReg_reg_of_ne, and_self]

theorem saved_trapSave (s : State) : Saved s (State.execAll trapSave s) := by
  -- The state with the context on the stack, and the state with the registers in it.
  obtain ⟨sA, hA⟩ : ∃ sA, sA = s.exec (addi sp sp (-BitVec.ofNat 12 contextSize)) := ⟨_, rfl⟩
  obtain ⟨sB, hB⟩ : ∃ sB, sB = State.execAll (regs.map push) sA := ⟨_, rfl⟩
  obtain ⟨hregs, hcsr, hout, hmem⟩ := execAll_push regs sA
  have hc : sA.reg sp = contextAddr s := by
    rw [hA, exec_addi]
    rw [State.next_reg, State.setReg_reg_self _ _ _ (by decide), contextAddr, BitVec.sub_eq_add_neg]
    rfl
  have hAr : ∀ r ∈ regs, sA.reg r = s.reg r := by
    intro r hr
    rw [hA, exec_addi, State.next_reg, State.setReg_reg_of_ne _ _ ((mem_regs_iff r).mp hr).2]
  have hAm : sA.mem = s.mem := by rw [hA, exec_addi, State.next_mem, State.setReg_mem]
  have hAc : sA.csr = s.csr := by rw [hA, exec_addi, State.next_csr, State.setReg_csr]
  rw [← hB] at hregs hcsr hout hmem
  rw [hc] at hout hmem
  -- The stores leave `sp` at the context.
  have hBsp : sB.reg sp = contextAddr s := by
    rw [← hc]
    exact congrFun hregs sp
  -- The three CSRs follow, behind the registers.
  obtain ⟨ha0, hsp, hcsr', hmem'⟩ := execAll_saveCsrs sB
  have hall : State.execAll trapSave s = State.execAll [csrr t0 mcause, csrr t1 mstatus,
      csrr t2 mepc, sw t0 offsetCause sp, sw t1 offsetStatus sp, sw t2 offsetEpc sp,
      addi a0 sp 0#12] sB := by
    rw [hB, hA, ← State.execAll_cons, ← State.execAll_append]
    rfl
  rw [← hall, hBsp] at ha0 hsp hmem'
  rw [← hall] at hcsr'
  constructor
  · exact ha0
  · exact hsp
  · rw [hcsr', hcsr, hAc]
  · rw [hmem', ← hAm]
    have hstore (m : ByteMem 32) (data : Word) {j : ℕ} (hj : j < 36) :=
      SameOutside.storeWord (c := contextAddr s) m data hj
    exact ((hout.trans (hstore _ _ (by decide : 32 < 36))).trans
      (hstore _ _ (by decide : 33 < 36))).trans (hstore _ _ (by decide : 34 < 36))
  · intro r hr
    have hlt : r.toNat < 32 := r.isLt
    rw [hmem', wordAt_storeWord (by decide) (by omega), if_neg (by omega),
      wordAt_storeWord (by decide) (by omega), if_neg (by omega),
      wordAt_storeWord (by decide) (by omega), if_neg (by omega), hmem _ (by omega),
      if_pos ⟨r, hr, rfl⟩, BitVec.ofNat_toNat, BitVec.setWidth_eq]
    exact hAr r hr
  · rw [hmem', show offsetEpc = 34 * xlen from rfl, wordAt_storeWord (by decide) (by decide),
      if_pos rfl, hcsr, hAc]

/-- The part behind the call loads all of this from the context at `a0`, and goes to its `mepc`. -/
structure Restored (s s' : State) : Prop where
  pc : s'.pc = wordAt s.mem (s.reg a0) offsetEpc
  sp : s'.reg sp = s.reg a0 + BitVec.ofNat 32 contextSize
  gpr : ∀ r ∈ regs, s'.reg r = wordAt s.mem (s.reg a0) (r.toNat * xlen)
  mem : s'.mem = s.mem
  mtvec : s'.csr mtvec = s.csr mtvec
  mepc : s'.csr mepc = wordAt s.mem (s.reg a0) offsetEpc

/-- The beginning of this part switches to the stack of the context, and loads two CSRs. -/
theorem execAll_restoreCsrs (s : State) :
    let s' := State.execAll [addi sp a0 0#12, lw t1 offsetStatus sp, lw t2 offsetEpc sp,
      csrw mstatus t1, csrw mepc t2] s
    s'.reg sp = s.reg a0 ∧ s'.mem = s.mem ∧ s'.csr mtvec = s.csr mtvec ∧
      s'.csr mepc = wordAt s.mem (s.reg a0) offsetEpc := by
  have h34 : (BitVec.ofNat 12 offsetEpc).signExtend 32 = BitVec.ofNat 32 offsetEpc := rfl
  have h0 : (0#12).signExtend 32 = 0#32 := rfl
  simp (disch := decide) only [State.execAll_cons, State.execAll_nil, exec_csrw, exec_lw, exec_addi,
    h34, h0, BitVec.add_zero, State.next_reg, State.next_mem, State.next_csr, State.setCsr_reg,
    State.setCsr_mem, State.setCsr_csr, State.setReg_mem, State.setReg_csr, State.setReg_reg_self,
    State.setReg_reg_of_ne, Function.update_self, Function.update_of_ne, wordAt, and_self]

theorem restored_trapRestore (s : State) :
    Restored s ((State.execAll trapRestore s).exec .mret) := by
  -- The state on the stack of the context, and the state with the registers loaded.
  obtain ⟨sA, hA⟩ : ∃ sA, sA = State.execAll [addi sp a0 0#12, lw t1 offsetStatus sp,
    lw t2 offsetEpc sp, csrw mstatus t1, csrw mepc t2] s := ⟨_, rfl⟩
  obtain ⟨sB, hB⟩ : ∃ sB, sB = State.execAll (regs.map pop) sA := ⟨_, rfl⟩
  obtain ⟨hAsp, hAm, hAt, hAe⟩ := execAll_restoreCsrs s
  obtain ⟨hm, hcsr, hregs⟩ := execAll_pop regs (by decide) sA
  rw [← hA] at hAsp hAm hAt hAe
  rw [← hB] at hm hcsr hregs
  have hall : State.execAll trapRestore s =
      sB.exec (addi sp sp (BitVec.ofNat 12 contextSize)) := by
    rw [hB, hA, ← State.execAll_append]
    show _ = State.execAll [addi sp sp (BitVec.ofNat 12 contextSize)] _
    rw [← State.execAll_append]
    rfl
  -- `POP` does not load `sp`.
  have hBsp : sB.reg sp = s.reg a0 := by
    rw [← hAsp]
    exact (hregs sp).trans (if_neg (by decide))
  rw [hall, exec_addi]
  constructor
  · show sB.csr mepc = _
    rw [hcsr, hAe]
  · show ((sB.setReg sp _).next).reg sp = _
    rw [State.next_reg, State.setReg_reg_self _ _ _ (by decide), hBsp]
    rfl
  · intro r hr
    have hr' := (mem_regs_iff r).mp hr
    show ((sB.setReg sp _).next).reg r = _
    rw [State.next_reg, State.setReg_reg_of_ne _ _ hr'.2, State.reg_of_ne _ hr'.1, hregs r,
      if_pos hr, hAm, hAsp]
  · show sB.mem = _
    rw [hm, hAm]
  · show sB.csr mtvec = _
    rw [hcsr, hAt]
  · show sB.csr mepc = _
    rw [hcsr, hAe]

/-! ## The inline assembly of `yield` -/

/-- Every instruction before the jump goes on to the next. -/
theorem straight_yieldSave : ∀ i ∈ yieldSave, i.straight = true := by decide

/-- The inline assembly sets `mepc` to 32 behind its start, and jumps to `mtvec`. -/
theorem exec_yieldAsm (s : State) :
    let s' := (State.execAll yieldSave s).exec jrT2
    s'.pc = s.csr mtvec &&& ~~~1#32 ∧ s'.reg t2 = s.csr mtvec ∧ s'.mem = s.mem ∧
      s'.csr mtvec = s.csr mtvec ∧ s'.csr mepc = s.pc + 32#32 := by
  have h0 : (0#12).signExtend 32 = 0#32 := rfl
  have h32 : (32#12).signExtend 32 = 32#32 := rfl
  have hpc : s.pc + (0#20 ++ 0#12) = s.pc := BitVec.add_zero _
  simp (disch := decide) only [yieldSave, State.execAll_cons, State.execAll_nil, exec_csrw, exec_csrr,
    exec_addi, exec_auipc, exec_jrT2, h0, h32, hpc, BitVec.add_zero, State.next_reg, State.next_mem,
    State.next_csr, State.setCsr_reg, State.setCsr_mem, State.setCsr_csr, State.setReg_mem,
    State.setReg_csr, State.setReg_reg_self, State.setReg_reg_of_ne, State.jump_pc, State.jump_reg,
    State.jump_mem, State.jump_csr, Function.update_self, Function.update_of_ne, and_self]

end Am

end RV32Pipeline
