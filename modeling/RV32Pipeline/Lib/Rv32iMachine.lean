import Mathlib.Logic.Function.Iterate
import RV32Pipeline.Lib.ByteMem
import RV32Pipeline.Lib.Rv32i

/-!
# Sequential execution of RV32I with CSRs

A machine that executes one instruction at a time: the base instructions, `csrrw`, `csrrs`, and
`mret`. The program is a function from addresses to instructions, so code is not overwritten. The
rules at the end execute a block of code that has a jump at most at its end: `execAll` folds the
instructions over the state, and `iterate_block` says that the machine does the same.
-/

namespace Rv32i

/-- The instructions of the machine. -/
inductive SysInstr where
  | base (i : Instr)
  | csrrw (rd : Reg) (csr : BitVec 12) (rs1 : Reg)
  | csrrs (rd : Reg) (csr : BitVec 12) (rs1 : Reg)
  | mret
  deriving DecidableEq

/-- The encoding of an instruction. -/
def SysInstr.encode : SysInstr → Word
  | base i => i.encode
  | csrrw rd csr rs1 => iType csr rs1 0b001#3 rd 0b1110011#7
  | csrrs rd csr rs1 => iType csr rs1 0b010#3 rd 0b1110011#7
  | mret => 0x30200073#32

/-- The address of the CSR `mstatus`. -/
def mstatus : BitVec 12 := 0x300#12

/-- The address of the CSR `mtvec`. -/
def mtvec : BitVec 12 := 0x305#12

/-- The address of the CSR `mepc`. -/
def mepc : BitVec 12 := 0x341#12

/-- The address of the CSR `mcause`. -/
def mcause : BitVec 12 := 0x342#12

/-- The state of the machine. Entry 0 of the registers can be written, but is never read. -/
structure State where
  pc : Word
  regs : Reg → Word
  mem : ByteMem 32
  csr : BitVec 12 → Word

namespace State

variable (s : State)

/-- The value of a register. -/
def reg (r : Reg) : Word := if r = 0#5 then 0#32 else s.regs r

/-- What an instruction of the base set does in this state. -/
def effect (i : Instr) : Effect :=
  let x := s.reg i.rs1
  let y := s.reg i.rs2
  -- The address of a load does not depend on what the memory answers.
  match (i.exec s.pc x y 0#32).load with
  | some addr => i.exec s.pc x y (s.mem.load addr)
  | none => i.exec s.pc x y 0#32

/-- The state after an instruction. `mret` jumps and leaves `mstatus` alone, as in a machine that has
one privilege mode and no interrupts. -/
def exec (i : SysInstr) : State :=
  match i with
  | .base i =>
    { pc := (s.effect i).nextPc
      regs := match (s.effect i).dest with
        | some (rd, v) => Function.update s.regs rd v
        | none => s.regs
      mem := match (s.effect i).store with
        | some st => s.mem.store st.addr st.data st.mask
        | none => s.mem
      csr := s.csr }
  | .csrrw rd csr rs1 =>
    { s with
      pc := s.pc + 4#32
      regs := Function.update s.regs rd (s.csr csr)
      csr := Function.update s.csr csr (s.reg rs1) }
  | .csrrs rd csr rs1 =>
    { s with
      pc := s.pc + 4#32
      regs := Function.update s.regs rd (s.csr csr)
      csr := Function.update s.csr csr (s.csr csr ||| s.reg rs1) }
  | .mret => { s with pc := s.csr mepc }

/-- The target of a `jalr` is even in the state. -/
def EvenTarget : SysInstr → Prop
  | .base i => i.EvenTarget (s.reg i.rs1)
  | _ => True

/-- One step of the machine that runs the program `code`. -/
def step (code : Word → SysInstr) (s : State) : State := s.exec (code s.pc)

/-- The state after the instructions of a list, in order. -/
def execAll (l : List SysInstr) (s : State) : State := l.foldl exec s

@[simp]
theorem execAll_nil : execAll [] s = s := rfl

@[simp]
theorem execAll_cons (i : SysInstr) (l : List SysInstr) :
    execAll (i :: l) s = execAll l (s.exec i) := rfl

theorem execAll_append (l l' : List SysInstr) : execAll (l ++ l') s = execAll l' (execAll l s) :=
  List.foldl_append

@[simp]
theorem reg_zero : s.reg 0#5 = 0#32 := rfl

theorem reg_of_ne {r : Reg} (h : r ≠ 0#5) : s.reg r = s.regs r := if_neg h

/-! ### Updates of the state -/

/-- The state with the PC behind the instruction. -/
def next : State := { s with pc := s.pc + 4#32 }

/-- The state with a register replaced. -/
def setReg (r : Reg) (v : Word) : State := { s with regs := Function.update s.regs r v }

/-- The state with a CSR replaced. -/
def setCsr (c : BitVec 12) (v : Word) : State := { s with csr := Function.update s.csr c v }

/-- The state with another memory. -/
def setMem (m : ByteMem 32) : State := { s with mem := m }

/-- The state with the PC at a target. -/
def jump (p : Word) : State := { s with pc := p }

section Updates

variable (r q : Reg) (v p : Word) (c d : BitVec 12) (m : ByteMem 32)

@[simp] theorem next_pc : s.next.pc = s.pc + 4#32 := rfl
@[simp] theorem next_reg : s.next.reg r = s.reg r := rfl
@[simp] theorem next_mem : s.next.mem = s.mem := rfl
@[simp] theorem next_csr : s.next.csr = s.csr := rfl
@[simp] theorem jump_pc : (s.jump p).pc = p := rfl
@[simp] theorem jump_reg : (s.jump p).reg r = s.reg r := rfl
@[simp] theorem jump_mem : (s.jump p).mem = s.mem := rfl
@[simp] theorem jump_csr : (s.jump p).csr = s.csr := rfl
@[simp] theorem setReg_pc : (s.setReg r v).pc = s.pc := rfl
@[simp] theorem setReg_mem : (s.setReg r v).mem = s.mem := rfl
@[simp] theorem setReg_csr : (s.setReg r v).csr = s.csr := rfl
@[simp] theorem setCsr_pc : (s.setCsr c v).pc = s.pc := rfl
@[simp] theorem setCsr_reg : (s.setCsr c v).reg r = s.reg r := rfl
@[simp] theorem setCsr_mem : (s.setCsr c v).mem = s.mem := rfl
@[simp] theorem setCsr_csr : (s.setCsr c v).csr = Function.update s.csr c v := rfl
@[simp] theorem setMem_pc : (s.setMem m).pc = s.pc := rfl
@[simp] theorem setMem_reg : (s.setMem m).reg r = s.reg r := rfl
@[simp] theorem setMem_mem : (s.setMem m).mem = m := rfl
@[simp] theorem setMem_csr : (s.setMem m).csr = s.csr := rfl

theorem setReg_reg : (s.setReg r v).reg q = if q = 0#5 then 0#32 else if q = r then v else s.reg q := by
  show (if q = 0#5 then 0#32 else Function.update s.regs r v q) = _
  by_cases hq : q = 0#5
  · rw [if_pos hq, if_pos hq]
  · rw [if_neg hq, if_neg hq]
    by_cases hr : q = r
    · rw [hr, Function.update_self, if_pos rfl]
    · rw [Function.update_of_ne hr, if_neg hr, s.reg_of_ne hq]

/-- The register that was replaced. -/
theorem setReg_reg_self (h : r ≠ 0#5) : (s.setReg r v).reg r = v := by
  rw [setReg_reg, if_neg h, if_pos rfl]

/-- A register that was not. -/
theorem setReg_reg_of_ne {r q : Reg} (h : q ≠ r) : (s.setReg r v).reg q = s.reg q := by
  rw [setReg_reg, if_neg h]
  split_ifs with hq
  · rw [hq, reg_zero]
  · rfl

end Updates

end State

/-! ## Straight code -/

/-- The instruction goes on to the one behind it. -/
def SysInstr.straight : SysInstr → Bool
  | base (.jal _ _) => false
  | base (.jalr _ _ _) => false
  | base (.branch _ _ _ _) => false
  | mret => false
  | _ => true

/-- The instructions of a list stand in the program from `p` on. -/
def Loaded (code : Word → SysInstr) (p : Word) : List SysInstr → Prop
  | [] => True
  | i :: l => code p = i ∧ Loaded code (p + 4#32) l

/-- Whether a list of instructions stands in a program can be computed. -/
instance Loaded.decidable (code : Word → SysInstr) (p : Word) :
    (l : List SysInstr) → Decidable (Loaded code p l)
  | [] => isTrue trivial
  | i :: l =>
    have := Loaded.decidable code (p + 4#32) l
    inferInstanceAs (Decidable (code p = i ∧ Loaded code (p + 4#32) l))

namespace Loaded

variable {code : Word → SysInstr} {p : Word}

/-- The place of an instruction, from the first and from the second. -/
theorem add_four_add (p : Word) (k : ℕ) :
    p + 4#32 + BitVec.ofNat 32 (4 * k) = p + BitVec.ofNat 32 (4 * (k + 1)) := by
  rw [BitVec.add_assoc]
  congr 1
  apply BitVec.eq_of_toNat_eq
  simp only [BitVec.toNat_add, BitVec.toNat_ofNat]
  omega

theorem append {l l' : List SysInstr} : Loaded code p (l ++ l') ↔
    Loaded code p l ∧ Loaded code (p + BitVec.ofNat 32 (4 * l.length)) l' := by
  induction l generalizing p with
  | nil =>
    rw [List.nil_append, List.length_nil, show p + BitVec.ofNat 32 (4 * 0) = p from BitVec.add_zero p]
    exact ⟨fun h => ⟨trivial, h⟩, And.right⟩
  | cons i l ih =>
    show (code p = i ∧ Loaded code (p + 4#32) (l ++ l')) ↔ _
    rw [ih, add_four_add]
    exact and_assoc.symm

/-- The instruction at a place of a loaded list. -/
theorem get {l : List SysInstr} (h : Loaded code p l) {k : ℕ} (hk : k < l.length) :
    code (p + BitVec.ofNat 32 (4 * k)) = l[k] := by
  induction l generalizing p k with
  | nil => exact absurd hk (Nat.not_lt_zero k)
  | cons i l ih =>
    rcases k with _ | k
    · rw [show p + BitVec.ofNat 32 (4 * 0) = p from BitVec.add_zero p]
      exact h.1
    · rw [← add_four_add]
      exact ih h.2 (Nat.lt_of_succ_lt_succ hk)

end Loaded

namespace State

variable {s : State}

theorem pc_exec {i : SysInstr} (h : i.straight = true) : (s.exec i).pc = s.pc + 4#32 := by
  rcases i with i | _ | _ | _
  · unfold SysInstr.straight at h
    cases i <;> first | rfl | exact absurd h Bool.false_ne_true
  · rfl
  · rfl
  · exact absurd h Bool.false_ne_true

theorem pc_execAll {l : List SysInstr} (h : ∀ i ∈ l, i.straight = true) :
    (execAll l s).pc = s.pc + BitVec.ofNat 32 (4 * l.length) := by
  induction l generalizing s with
  | nil => exact (BitVec.add_zero s.pc).symm
  | cons i l ih =>
    rw [execAll_cons, ih fun j hj => h j (List.mem_cons_of_mem i hj),
      pc_exec (h i List.mem_cons_self), Loaded.add_four_add, List.length_cons]

variable {code : Word → SysInstr}

/-- The machine executes straight code with any instruction behind it. -/
theorem iterate_block {l : List SysInstr} {j : SysInstr} (h : ∀ i ∈ l, i.straight = true)
    (hl : Loaded code s.pc (l ++ [j])) :
    (step code)^[l.length + 1] s = (execAll l s).exec j := by
  induction l generalizing s with
  | nil =>
    show s.exec (code s.pc) = s.exec j
    rw [hl.1]
  | cons i l ih =>
    obtain ⟨hi, hl⟩ := hl
    have hs : step code s = s.exec i := by rw [step, hi]
    have hpc := pc_exec (s := s) (h i List.mem_cons_self)
    rw [List.length_cons, Function.iterate_succ_apply, hs, execAll_cons]
    exact ih (fun j hj => h j (List.mem_cons_of_mem i hj)) (by rw [hpc]; exact hl)

end State

end Rv32i
