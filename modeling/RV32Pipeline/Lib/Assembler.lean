import Mathlib.Tactic.Ring
import Mathlib.Tactic.Positivity
import RV32Pipeline.Lib.Reaches
import RV32Pipeline.Lib.Rv32iMachine

/-!
# Assembly code for RV32I

A listing has labels, and jumps that name them; `assemble` computes their offsets. A rule for each
kind of instruction says what the machine does at a place of the assembled code. The rules speak of
the registers as a function and of targets as labels, so code is verified at the level of its
listing.
-/

namespace Rv32i

namespace Asm

/-- A line of a listing. -/
inductive Line (L : Type*) where
  | label (l : L)
  | instr (i : Instr)
  | branch (op : BranchOp) (rs1 rs2 : Reg) (target : L)
  | jal (rd : Reg) (target : L)

variable {L : Type*} [DecidableEq L]

/-- The number of the instruction behind a label. -/
def place : List (Line L) → L → ℕ
  | [], _ => 0
  | .label l' :: ls, l => if l = l' then 0 else place ls l
  | .instr _ :: ls, l => place ls l + 1
  | .branch _ _ _ _ :: ls, l => place ls l + 1
  | .jal _ _ :: ls, l => place ls l + 1

/-- The immediate of a jump from instruction `k` to instruction `j`, which counts units of two
bytes. -/
def jumpImm (w k j : ℕ) : BitVec w := BitVec.ofInt w (2 * ((j : ℤ) - k))

/-- The instructions of the lines, the first of which has number `k`. -/
def resolve (place : L → ℕ) : ℕ → List (Line L) → List Instr
  | _, [] => []
  | k, .label _ :: ls => resolve place k ls
  | k, .instr i :: ls => i :: resolve place (k + 1) ls
  | k, .branch op rs1 rs2 l :: ls =>
    .branch op rs1 rs2 (jumpImm 12 k (place l)) :: resolve place (k + 1) ls
  | k, .jal rd l :: ls => .jal rd (jumpImm 20 k (place l)) :: resolve place (k + 1) ls

/-- The instructions of a listing. -/
def assemble (ls : List (Line L)) : List Instr := resolve (place ls) 0 ls

/-! ## Pseudo-instructions -/

section Pseudo

variable (rd rs : Reg) (l : L)

/-- The pseudo-instruction `mv`. -/
def mv : Line L := .instr (.opImm .addi rd rs 0#12)

/-- The pseudo-instruction `li`, for a constant of 12 bits. -/
def li (imm : BitVec 12) : Line L := .instr (.opImm .addi rd 0#5 imm)

/-- The pseudo-instruction `neg`. -/
def neg : Line L := .instr (.opReg .sub rd 0#5 rs)

/-- The pseudo-instruction `jr`. -/
def jr : Line L := .instr (.jalr 0#5 rs 0#12)

/-- The pseudo-instruction `beqz`. -/
def beqz : Line L := .branch .beq rs 0#5 l

/-- The pseudo-instruction `bnez`. -/
def bnez : Line L := .branch .bne rs 0#5 l

/-- The pseudo-instruction `bltz`. -/
def bltz : Line L := .branch .blt rs 0#5 l

/-- The pseudo-instruction `bgez`. -/
def bgez : Line L := .branch .bge rs 0#5 l

/-- The pseudo-instruction `blez`. -/
def blez : Line L := .branch .bge 0#5 rs l

/-- The pseudo-instruction `bgtz`. -/
def bgtz : Line L := .branch .blt 0#5 rs l

/-- The pseudo-instruction `j`. -/
def j : Line L := .jal 0#5 l

/-- The bits of a constant that `lui` loads; the low part is then added as a signed number. -/
def upper (v : Word) : BitVec 20 := (v + 0x800#32).extractLsb' 12 20

/-- The pseudo-instruction `li`, for any constant. -/
def liWord (v : Word) : List Instr :=
  [.lui rd (upper v), .opImm .addi rd rd (v.extractLsb' 0 12)]

end Pseudo

/-- The two parts of a constant. -/
theorem upper_add (v : Word) : (upper v ++ 0#12) + (v.extractLsb' 0 12).signExtend 32 = v := by
  have hv := v.isLt
  have hhi : (upper v ++ 0#12).toNat = (v.toNat + 2048) % 2 ^ 32 / 4096 * 4096 := by
    rw [BitVec.toNat_append, upper, BitVec.extractLsb'_toNat, BitVec.toNat_add]
    simp only [BitVec.toNat_ofNat, Nat.shiftLeft_eq, Nat.shiftRight_eq_div_pow, Nat.zero_mod,
      Nat.or_zero]
    omega
  have hlo : ((v.extractLsb' 0 12).signExtend 32).toNat =
      if v.toNat % 4096 < 2048 then v.toNat % 4096 else 2 ^ 32 + v.toNat % 4096 - 4096 := by
    rw [BitVec.signExtend, BitVec.toNat_ofInt, BitVec.toInt_eq_toNat_cond, BitVec.extractLsb'_toNat,
      Nat.shiftRight_zero]
    split_ifs <;> omega
  apply BitVec.eq_of_toNat_eq
  rw [BitVec.toNat_add, hhi, hlo]
  split_ifs <;> omega

/-! ## Places of the code -/

/-- The address of instruction `k`. -/
def addrOf (p : Word) (k : ℕ) : Word := p + BitVec.ofNat 32 (4 * k)

theorem addrOf_zero (p : Word) : addrOf p 0 = p := BitVec.add_zero p

theorem addrOf_succ (p : Word) (k : ℕ) : addrOf p k + 4#32 = addrOf p (k + 1) := by
  rw [addrOf, addrOf, BitVec.add_assoc]
  congr 1
  apply BitVec.eq_of_toNat_eq
  simp only [BitVec.toNat_add, BitVec.toNat_ofNat]
  omega

/-- The immediate of a jump, with the bit that it leaves out. -/
theorem jumpImm_append (w k j : ℕ) :
    jumpImm w k j ++ 0#1 = BitVec.ofInt (w + 1) (4 * ((j : ℤ) - k)) := by
  apply BitVec.eq_of_toNat_eq
  have hpos : (0 : ℤ) < 2 ^ w := by positivity
  have hmod : (2 * (2 * ((j : ℤ) - k))) % (2 * 2 ^ w) = 2 * ((2 * ((j : ℤ) - k)) % 2 ^ w) :=
    Int.mul_emod_mul_of_pos _ _ (by omega)
  have hfour : 4 * ((j : ℤ) - k) = 2 * (2 * ((j : ℤ) - k)) := by ring
  rw [BitVec.toNat_append, jumpImm, BitVec.toNat_ofInt, BitVec.toNat_ofInt, hfour, pow_succ',
    Nat.cast_mul, Nat.cast_pow, Nat.cast_ofNat, hmod, Int.toNat_mul (by omega)
    (Int.emod_nonneg _ hpos.ne'), BitVec.toNat_ofNat, Nat.zero_mod, Nat.or_zero,
    Nat.shiftLeft_eq, Nat.mul_comm]
  rfl

theorem addrOf_addrOf (p : Word) (k j : ℕ) : addrOf (addrOf p k) j = addrOf p (k + j) := by
  rw [addrOf, addrOf, addrOf, BitVec.add_assoc, Nat.mul_add, BitVec.ofNat_add]

/-- The offset of a jump leads from an instruction to the other. -/
theorem addrOf_jump {p : Word} {w k j : ℕ} (hlo : -2 ^ w ≤ 4 * ((j : ℤ) - k))
    (hhi : 4 * ((j : ℤ) - k) < 2 ^ w) :
    addrOf p k + (jumpImm w k j ++ 0#1).signExtend 32 = addrOf p j := by
  have hoff : (jumpImm w k j ++ 0#1).signExtend 32 = BitVec.ofInt 32 (4 * ((j : ℤ) - k)) := by
    rw [jumpImm_append, BitVec.signExtend, BitVec.toInt_ofInt_eq_self (Nat.succ_pos w) hlo hhi]
  have hadd : BitVec.ofNat 32 (4 * k) + BitVec.ofInt 32 (4 * ((j : ℤ) - k)) =
      BitVec.ofNat 32 (4 * j) := by
    rw [← BitVec.ofInt_natCast, ← BitVec.ofInt_natCast, ← BitVec.ofInt_add]
    congr 1
    push_cast
    ring
  rw [hoff, addrOf, BitVec.add_assoc, hadd, addrOf]

/-- Instructions at an even address have even addresses. -/
theorem addrOf_even {p : Word} (hp : p.getLsbD 0 = false) (k : ℕ) :
    (addrOf p k).getLsbD 0 = false := by
  rw [BitVec.getLsbD, Nat.testBit_zero, decide_eq_false_iff_not] at hp ⊢
  rw [addrOf, BitVec.toNat_add, BitVec.toNat_ofNat]
  omega

/-! ## Code from a list -/

/-- The program of the instructions of a list from `p` on, and of `nop`s elsewhere. -/
def codeOf (p : Word) (is : List Instr) (q : Word) : SysInstr :=
  .base (is.getD ((q - p).toNat / 4) (.opImm .addi 0#5 0#5 0#12))

theorem codeOf_addrOf (p : Word) {is : List Instr} (hlen : is.length ≤ 2 ^ 30) {k : ℕ}
    (hk : k < is.length) : codeOf p is (addrOf p k) = .base is[k] := by
  have hsub : (addrOf p k - p).toNat / 4 = k := by
    rw [addrOf, BitVec.add_comm, BitVec.add_sub_cancel, BitVec.toNat_ofNat]
    omega
  rw [codeOf, hsub, List.getD_eq_getElem?_getD, List.getElem?_eq_getElem hk, Option.getD_some]

/-- Instructions stand in a program if each of them does. -/
theorem loaded_of_get {code : Word → SysInstr} {p : Word} {l : List SysInstr}
    (h : ∀ k (hk : k < l.length), code (addrOf p k) = l[k]) : Loaded code p l := by
  induction l generalizing p with
  | nil => trivial
  | cons i l ih =>
    refine ⟨?_, ih fun k hk => ?_⟩
    · rw [← addrOf_zero p]
      exact h 0 (Nat.succ_pos _)
    · rw [addrOf, Loaded.add_four_add]
      exact h (k + 1) (Nat.succ_lt_succ hk)

theorem loaded_codeOf (p : Word) {is : List Instr} (hlen : is.length ≤ 2 ^ 30) :
    Loaded (codeOf p is) p (is.map .base) :=
  loaded_of_get fun k hk => by
    rw [List.length_map] at hk
    rw [codeOf_addrOf p hlen hk, List.getElem_map]

/-! ## Runs of assembled code -/

/-- The machine is at instruction `k` of the code at `p`, with the registers `f`, and the memory and
the CSRs of `σ`. -/
structure At (p : Word) (σ : State) (k : ℕ) (f : Reg → Word) (s : State) : Prop where
  pc : s.pc = addrOf p k
  reg : s.reg = f
  mem : s.mem = σ.mem
  csr : s.csr = σ.csr

/-- The machine is at one of the `n` instructions from `p` on, and if this is a `jalr`, its target is
even. -/
def Inside (code : Word → SysInstr) (p : Word) (n : ℕ) (s : State) : Prop :=
  (∃ k < n, s.pc = addrOf p k) ∧ s.EvenTarget (code s.pc)

/-- The code at `p`, of `n` instructions, leads from one condition to another. -/
abbrev Runs (code : Word → SysInstr) (p : Word) (n : ℕ) (P Q : State → Prop) : Prop :=
  Reaches (State.step code) (Inside code p n) P Q

/-- The registers after the write to one that is not `x0`. -/
theorem setReg_reg_eq_update (s : State) {rd : Reg} (hrd : rd ≠ 0#5) (v : Word) :
    (s.setReg rd v).reg = Function.update s.reg rd v := by
  funext q
  rw [State.setReg_reg, Function.update_apply]
  by_cases hq : q = 0#5
  · rw [if_pos hq, hq, if_neg (Ne.symm hrd), State.reg_zero]
  · rw [if_neg hq]

/-- The place where a call returns to. -/
theorem At.return {p : Word} {σ : State} {k : ℕ} {f : Reg → Word} {s : State}
    (h : At (addrOf p k) σ 0 f s) : At p σ k f s :=
  ⟨h.pc.trans (addrOf_zero _), h.reg, h.mem, h.csr⟩

section Rules

variable {code : Word → SysInstr} {p : Word} {is : List Instr}
  (hcode : Loaded code p (is.map .base)) {σ : State} {k : ℕ} {f : Reg → Word}
include hcode

theorem code_addrOf {i : Instr} (hk : is[k]? = some i) : code (addrOf p k) = .base i := by
  obtain ⟨hlt, rfl⟩ := List.getElem?_eq_some_iff.mp hk
  have h := hcode.get (k := k) (by rwa [List.length_map])
  rwa [List.getElem_map] at h

/-- The machine executes the instruction that it is at. -/
theorem step_of_at {i : Instr} (hk : is[k]? = some i) (heven : i.EvenTarget (f i.rs1)) {s : State}
    (hs : At p σ k f s) : Inside code p is.length s ∧ s.step code = s.exec (.base i) := by
  have hi : code s.pc = .base i := by rw [hs.pc, code_addrOf hcode hk]
  refine ⟨⟨⟨k, (List.getElem?_eq_some_iff.mp hk).1, hs.pc⟩, ?_⟩, by rw [State.step, hi]⟩
  rw [hi, State.EvenTarget, hs.reg]
  exact heven

/-- One instruction. -/
theorem runs_instr {i : Instr} {Q : State → Prop} (hk : is[k]? = some i)
    (heven : i.EvenTarget (f i.rs1)) (hQ : ∀ s, At p σ k f s → Q (s.exec (.base i))) :
    Runs code p is.length (At p σ k f) Q :=
  Reaches.one fun s hs => by
    obtain ⟨hin, hstep⟩ := step_of_at hcode hk heven hs
    rw [hstep]
    exact ⟨hin, hQ s hs⟩

/-- An instruction that computes the value of a register. -/
theorem runs_reg {i : Instr} {rd : Reg} {v : Word} (hk : is[k]? = some i)
    (heven : i.EvenTarget (f i.rs1)) (hrd : rd ≠ 0#5)
    (hi : ∀ s : State, s.reg = f → s.exec (.base i) = (s.setReg rd v).next) :
    Runs code p is.length (At p σ k f) (At p σ (k + 1) (Function.update f rd v)) :=
  runs_instr hcode hk heven fun s hs => by
    rw [hi s hs.reg]
    exact ⟨by rw [State.next_pc, State.setReg_pc, hs.pc, addrOf_succ],
      (setReg_reg_eq_update s hrd v).trans (by rw [hs.reg]), hs.mem, hs.csr⟩

/-- An operation on two registers. -/
theorem runs_opReg {op : RegOp} {rd rs1 rs2 : Reg} {v : Word}
    (hk : is[k]? = some (.opReg op rd rs1 rs2)) (hrd : rd ≠ 0#5)
    (hv : f 0#5 = 0#32 → op.eval (f rs1) (f rs2) = v) :
    Runs code p is.length (At p σ k f) (At p σ (k + 1) (Function.update f rd v)) :=
  runs_reg hcode hk trivial hrd fun s hs => by
    rw [← hv (hs ▸ s.reg_zero), ← hs]
    rfl

/-- An operation with an immediate. -/
theorem runs_opImm {op : ImmOp} {rd rs1 : Reg} {imm : BitVec 12} {v : Word}
    (hk : is[k]? = some (.opImm op rd rs1 imm)) (hrd : rd ≠ 0#5)
    (hv : f 0#5 = 0#32 → op.toRegOp.eval (f rs1) (imm.signExtend 32) = v) :
    Runs code p is.length (At p σ k f) (At p σ (k + 1) (Function.update f rd v)) :=
  runs_reg hcode hk trivial hrd fun s hs => by
    rw [← hv (hs ▸ s.reg_zero), ← hs]
    rfl

/-- A shift. -/
theorem runs_shiftImm {op : ShiftOp} {rd rs1 : Reg} {shamt : BitVec 5} {v : Word}
    (hk : is[k]? = some (.shiftImm op rd rs1 shamt)) (hrd : rd ≠ 0#5)
    (hv : op.toRegOp.eval (f rs1) (shamt.setWidth 32) = v) :
    Runs code p is.length (At p σ k f) (At p σ (k + 1) (Function.update f rd v)) :=
  runs_reg hcode hk trivial hrd fun s hs => by
    rw [← hv, ← hs]
    rfl

/-- The upper bits of a constant. -/
theorem runs_lui {rd : Reg} {imm : BitVec 20} (hk : is[k]? = some (.lui rd imm)) (hrd : rd ≠ 0#5) :
    Runs code p is.length (At p σ k f) (At p σ (k + 1) (Function.update f rd (imm ++ 0#12))) :=
  runs_reg hcode hk trivial hrd fun _ _ => rfl

/-- The pseudo-instruction `li`, for any constant. -/
theorem runs_liWord {rd : Reg} {v : Word} (hrd : rd ≠ 0#5)
    (hk : is[k]? = some (.lui rd (upper v)))
    (hk' : is[k + 1]? = some (.opImm .addi rd rd (v.extractLsb' 0 12))) :
    Runs code p is.length (At p σ k f) (At p σ (k + 2) (Function.update f rd v)) := by
  have hlui := runs_lui (σ := σ) (f := f) hcode hk hrd
  have hadd := hlui.trans (runs_opImm hcode (v := v) hk' hrd fun _ => by
    rw [Function.update_self]
    exact upper_add v)
  rwa [Function.update_idem] at hadd

/-- A branch. -/
theorem runs_branch {op : BranchOp} {rs1 rs2 : Reg} {j : ℕ}
    (hk : is[k]? = some (.branch op rs1 rs2 (jumpImm 12 k j))) (hlen : is.length < 1024)
    (hj : j ≤ is.length) :
    Runs code p is.length (At p σ k f)
      (At p σ (if op.taken (f rs1) (f rs2) then j else k + 1) f) :=
  runs_instr hcode hk trivial fun s hs => by
    have hlt := (List.getElem?_eq_some_iff.mp hk).1
    have hpc : (s.exec (.base (.branch op rs1 rs2 (jumpImm 12 k j)))).pc =
        if op.taken (s.reg rs1) (s.reg rs2) then
          s.pc + (jumpImm 12 k j ++ 0#1).signExtend 32
        else s.pc + 4#32 := rfl
    refine ⟨?_, hs.reg, hs.mem, hs.csr⟩
    rw [hpc, hs.reg, hs.pc, addrOf_succ, addrOf_jump (by omega) (by omega)]
    exact (apply_ite (addrOf p) _ _ _).symm

/-- A branch that is taken. -/
theorem runs_taken {op : BranchOp} {rs1 rs2 : Reg} {j : ℕ}
    (hk : is[k]? = some (.branch op rs1 rs2 (jumpImm 12 k j))) (hlen : is.length < 1024)
    (hj : j ≤ is.length) (ht : op.taken (f rs1) (f rs2) = true) :
    Runs code p is.length (At p σ k f) (At p σ j f) := by
  have h := runs_branch hcode (σ := σ) (f := f) hk hlen hj
  rwa [ht, if_pos rfl] at h

/-- A branch that is not taken. -/
theorem runs_not_taken {op : BranchOp} {rs1 rs2 : Reg} {j : ℕ}
    (hk : is[k]? = some (.branch op rs1 rs2 (jumpImm 12 k j))) (hlen : is.length < 1024)
    (hj : j ≤ is.length) (ht : op.taken (f rs1) (f rs2) = false) :
    Runs code p is.length (At p σ k f) (At p σ (k + 1) f) := by
  have h := runs_branch hcode (σ := σ) (f := f) hk hlen hj
  rwa [ht, if_neg Bool.false_ne_true] at h

/-- A jump, as one step. -/
theorem step_j {j : ℕ} (hk : is[k]? = some (.jal 0#5 (jumpImm 20 k j))) (hlen : is.length < 1024)
    (hj : j ≤ is.length) {s : State} (hs : At p σ k f s) :
    Inside code p is.length s ∧ At p σ j f (s.step code) := by
  obtain ⟨hin, hstep⟩ := step_of_at hcode hk trivial hs
  have hlt := (List.getElem?_eq_some_iff.mp hk).1
  have hpc : (s.exec (.base (.jal 0#5 (jumpImm 20 k j)))).pc =
    s.pc + (jumpImm 20 k j ++ 0#1).signExtend 32 := rfl
  rw [hstep]
  refine ⟨hin, ?_, ?_, hs.mem, hs.csr⟩
  · rw [hpc, hs.pc, addrOf_jump (by omega) (by omega)]
  · rw [← hs.reg]
    funext q
    exact (State.setReg_reg s 0#5 q _).trans (by split_ifs with hq <;> simp [hq])

/-- A jump. -/
theorem runs_j {j : ℕ} (hk : is[k]? = some (.jal 0#5 (jumpImm 20 k j))) (hlen : is.length < 1024)
    (hj : j ≤ is.length) : Runs code p is.length (At p σ k f) (At p σ j f) :=
  Reaches.one fun _ hs => step_j hcode hk hlen hj hs

/-- A call. -/
theorem runs_call {rd : Reg} {j : ℕ} (hk : is[k]? = some (.jal rd (jumpImm 20 k j)))
    (hrd : rd ≠ 0#5) (hlen : is.length < 1024) (hj : j ≤ is.length) :
    Runs code p is.length (At p σ k f)
      (At p σ j (Function.update f rd (addrOf p (k + 1)))) :=
  runs_instr hcode hk trivial fun s hs => by
    have hlt := (List.getElem?_eq_some_iff.mp hk).1
    have hpc : (s.exec (.base (.jal rd (jumpImm 20 k j)))).pc =
      s.pc + (jumpImm 20 k j ++ 0#1).signExtend 32 := rfl
    refine ⟨?_, ?_, hs.mem, hs.csr⟩
    · rw [hpc, hs.pc, addrOf_jump (by omega) (by omega)]
    · rw [← hs.reg, ← addrOf_succ, ← hs.pc]
      exact setReg_reg_eq_update s hrd _

/-- A jump to the address in a register. -/
theorem runs_jr {rs : Reg} (hk : is[k]? = some (.jalr 0#5 rs 0#12))
    (heven : (f rs).getLsbD 0 = false) :
    Runs code p is.length (At p σ k f) (At (f rs) σ 0 f) := by
  have hadd : f rs + (0#12).signExtend 32 = f rs := BitVec.add_zero _
  have heven' : (Instr.jalr 0#5 rs 0#12).EvenTarget (f rs) := by
    rw [Instr.EvenTarget, hadd]
    exact heven
  refine runs_instr hcode hk heven' fun s hs => ?_
  have hpc : (s.exec (.base (.jalr 0#5 rs 0#12))).pc =
      (s.reg rs + (0#12).signExtend 32) &&& ~~~1#32 := rfl
  refine ⟨?_, ?_, hs.mem, hs.csr⟩
  · rw [hpc, hs.reg, hadd, clear_bit_zero heven, addrOf_zero]
  · rw [← hs.reg]
    funext q
    exact (State.setReg_reg s 0#5 q _).trans (by split_ifs with hq <;> simp [hq])

end Rules

/-! ## Conditions on the registers -/

/-- The machine is at instruction `k`, and the registers meet a condition. -/
def AtWith (p : Word) (σ : State) (k : ℕ) (A : (Reg → Word) → Prop) (s : State) : Prop :=
  ∃ f, At p σ k f s ∧ A f

/-- The registers outside of a list are the same. -/
def KeepsRegs (l : List Reg) (f g : Reg → Word) : Prop := ∀ r ∉ l, g r = f r

namespace KeepsRegs

variable {l l' : List Reg} {f g g' : Reg → Word}

theorem refl (l : List Reg) (f : Reg → Word) : KeepsRegs l f f := fun _ _ => rfl

theorem trans (h : KeepsRegs l f g) (h' : KeepsRegs l g g') : KeepsRegs l f g' :=
  fun r hr => (h' r hr).trans (h r hr)

theorem update (h : KeepsRegs l f g) {r : Reg} (hr : r ∈ l) (v : Word) :
    KeepsRegs l f (Function.update g r v) := by
  intro q hq
  have hne : q ≠ r := fun he => hq (he.symm ▸ hr)
  rw [Function.update_of_ne hne, h q hq]

/-- Registers that were changed before may be other ones. -/
theorem of_update {r : Reg} {v : Word} (h : KeepsRegs l (Function.update f r v) g) (hr : r ∈ l) :
    KeepsRegs l f g := ((refl l f).update hr v).trans h

theorem mono (h : KeepsRegs l f g) (hl : ∀ r ∈ l, r ∈ l') : KeepsRegs l' f g :=
  fun r hr => h r fun hr' => hr (hl r hr')

end KeepsRegs

section Conditions

variable {code : Word → SysInstr} {p q : Word} {σ : State} {n k : ℕ} {f : Reg → Word}
  {A : (Reg → Word) → Prop} {Q : State → Prop}

/-- The register `x0` is zero. -/
theorem Runs.of_zero (h : f 0#5 = 0#32 → Runs code p n (At q σ k f) Q) :
    Runs code p n (At q σ k f) Q :=
  fun s hs => h (hs.reg ▸ s.reg_zero) s hs

/-- From a condition on the registers, which are then given. -/
theorem Runs.of_atWith (h : ∀ f, A f → f 0#5 = 0#32 → Runs code p n (At q σ k f) Q) :
    Runs code p n (AtWith q σ k A) Q :=
  fun s ⟨f, hs, hA⟩ => h f hA (hs.reg ▸ s.reg_zero) s hs

/-- To a condition on the registers. -/
theorem Runs.to_atWith {P : State → Prop} (h : Runs code p n P (At q σ k f)) (hA : A f) :
    Runs code p n P (AtWith q σ k A) :=
  h.mono (fun _ hs => hs) fun _ hs => ⟨f, hs, hA⟩

end Conditions

end Asm

end Rv32i
