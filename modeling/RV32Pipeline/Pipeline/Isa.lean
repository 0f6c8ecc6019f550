import RV32Pipeline.Machine.Isa
import RV32Pipeline.Pipeline.CsrHazard
import RV32Pipeline.Pipeline.Invisible

/-!
# The pipeline implements the instruction set

`IsaProgram` is a condition on a program and on the states in which the machine of the instruction
set executes it; it does not mention the core. For every such program the sequential machine goes
through the same states (`IsaProgram.implements`), and the pipeline through those of the sequential
machine: from reset, for every timing of the responses, it writes back the program as the
instruction set executes it, and with responses that keep coming it goes on without end.
-/

namespace RV32Pipeline

open Rv32i

/-! ## Conditions on a program -/

/-- The registers that an instruction reads. -/
def sources : SysInstr → List Reg
  | .base i => i.source1.toList ++ i.source2.toList
  | .csrrw _ _ rs1 => [rs1]
  | .csrrs _ _ rs1 => [rs1]
  | .mret => []

/-- The register and the CSR that a `csrrw` or `csrrs` writes. -/
def csrTarget : SysInstr → Option (Reg × BitVec 12)
  | .csrrw rd csr _ => some (rd, csr)
  | .csrrs rd csr _ => some (rd, csr)
  | _ => none

/-- The CSR that an instruction reads. -/
def csrSource : SysInstr → Option (BitVec 12)
  | .csrrw _ csr _ => some csr
  | .csrrs _ csr _ => some csr
  | .mret => some mepc
  | _ => none

/-- The offset of a branch or a `jal` is a multiple of 4. -/
def alignedOffset : SysInstr → Bool
  | .base (.branch _ _ _ imm) => !imm.getLsbD 0
  | .base (.jal _ imm) => !imm.getLsbD 0
  | _ => true

/-- The state that reset leaves, over a data memory. -/
def isaReset (dmem : ByteMem 32) : State where
  pc := pcRst
  regs _ := 0#32
  mem := dmem
  csr c := if c = mstatus then 0x1800#32 else 0#32

/-- The state of the machine of the instruction set after `n` instructions from reset. -/
def isaSeq (code : Word → SysInstr) (dmem : ByteMem 32) (n : ℕ) : State :=
  (State.step code)^[n] (isaReset dmem)

/-- The program in `mem` is `code`, and the core can execute it: it accesses the CSRs that exist,
jumps to aligned addresses, leaves its code alone, and reads a register or a CSR that a `csrrw` or
`csrrs` has written only some instructions later. -/
structure IsaProgram (code : Word → SysInstr) (mem : Memories) : Prop where
  encoded : ∀ n, mem.fetch (isaSeq code mem.dmem n).pc = (code (isaSeq code mem.dmem n).pc).encode
  csrs : ∀ n, CsrsImplemented (code (isaSeq code mem.dmem n).pc)
  even : ∀ n, (isaSeq code mem.dmem n).EvenTarget (code (isaSeq code mem.dmem n).pc)
  aligned : ∀ n, Aligned (isaSeq code mem.dmem n).pc
  offset : ∀ n, alignedOffset (code (isaSeq code mem.dmem n).pc) = true
  fixed : ∀ n k, ∀ st ∈ storeOf (isaSeq code mem.dmem n) (code (isaSeq code mem.dmem n).pc),
    ¬ ByteMem.Overlaps st.addr st.mask (isaSeq code mem.dmem k).pc
  register : ∀ n k, k < 2 → ∀ rd csr,
    csrTarget (code (isaSeq code mem.dmem n).pc) = some (rd, csr) →
    rd ∈ sources (code (isaSeq code mem.dmem (n + k + 1)).pc) → rd = 0#5
  csr : ∀ n k, k < 3 → ∀ rd csr,
    csrTarget (code (isaSeq code mem.dmem n).pc) = some (rd, csr) →
    csrSource (code (isaSeq code mem.dmem (n + k + 1)).pc) ≠ some csr

/-! ## What the decoder says of an encoded instruction -/

section Decode

variable (i : SysInstr)

/-- The opcode of an encoded instruction. -/
def opcodeOf : SysInstr → BitVec 7
  | .base (.lui _ _) => Opcode.lui
  | .base (.auipc _ _) => Opcode.auipc
  | .base (.jal _ _) => Opcode.jal
  | .base (.jalr _ _ _) => Opcode.jalr
  | .base (.branch _ _ _ _) => Opcode.bType
  | .base (.load _ _ _ _) => Opcode.load
  | .base (.store _ _ _ _) => Opcode.store
  | .base (.opImm _ _ _ _) => Opcode.iType
  | .base (.shiftImm _ _ _ _) => Opcode.iType
  | .base (.opReg _ _ _ _) => Opcode.rType
  | _ => Opcode.csr

theorem opcode_encode : i.encode.extractLsb' 0 7 = opcodeOf i := by
  rcases i with i | ⟨rd, csr, rs1⟩ | ⟨rd, csr, rs1⟩ | _
  · cases i <;> exact opcode_assemble ..
  · exact opcode_assemble ..
  · exact opcode_assemble ..
  · rfl

/-- The decoder knows every encoded instruction. -/
theorem isKnown_encode : isKnown i.encode = true := by
  have hop : (mulcuDecoder i.encode).opcode = opcodeOf i := opcode_encode i
  rw [isKnown, isBase, hop]
  rcases i with i | _ | _ | _
  · cases i <;> rfl
  · rfl
  · rfl
  · rfl

/-- The second source field of an instruction with one. -/
theorem rs2_encode (h : (controlD i.encode).readsRs2 = true) :
    i.encode.extractLsb' 20 5 ∈ sources i := by
  have hop : (controlD i.encode).opcodeE = opcodeOf i := opcode_encode i
  rw [ControlE.readsRs2, hop] at h
  rcases i with i | _ | _ | _
  · cases h2 : i.source2 with
    | none => cases i <;> cases h2 <;> exact absurd h Bool.false_ne_true
    | some r =>
      have hr : (SysInstr.base i).encode.extractLsb' 20 5 = r := Instr.rs2_encode h2
      rw [hr, sources, h2]
      simp
  all_goals exact absurd h Bool.false_ne_true

/-- The first source field of an instruction with one. The word of `mret` has the number 0 there. -/
theorem rs1_encode (h : (controlD i.encode).readsRs1 = true) :
    i.encode.extractLsb' 15 5 ∈ sources i ∨ i.encode.extractLsb' 15 5 = 0#5 := by
  have hop : (controlD i.encode).opcodeE = opcodeOf i := opcode_encode i
  rw [ControlE.readsRs1, hop] at h
  rcases i with i | ⟨rd, csr, rs1⟩ | ⟨rd, csr, rs1⟩ | _
  · left
    cases h1 : i.source1 with
    | none => cases i <;> cases h1 <;> exact absurd h Bool.false_ne_true
    | some r =>
      have hr : (SysInstr.base i).encode.extractLsb' 15 5 = r := Instr.rs1_encode h1
      rw [hr, sources, h1]
      simp
  · exact .inl (List.mem_singleton.mpr (rs1_assemble ..))
  · exact .inl (List.mem_singleton.mpr (rs1_assemble ..))
  · exact .inr rfl

/-- An encoded instruction reads its sources only. -/
theorem mem_sources_of_readsReg {r : Reg} (h : readsReg i.encode r = true) :
    r ∈ sources i ∨ r = 0#5 := by
  simp only [readsReg, Bool.or_eq_true, Bool.and_eq_true, beq_iff_eq] at h
  rcases h with ⟨h, rfl⟩ | ⟨h, rfl⟩
  · exact rs1_encode i h
  · exact .inl (rs2_encode i h)

/-- An encoded `csrrw` or `csrrs`. -/
theorem csrTarget_of_isCsr (h : (controlD i.encode).isCsr = true) :
    csrTarget i = some ((controlD i.encode).rdE, (controlD i.encode).csrWaddrE) := by
  rcases i with i | ⟨rd, csr, rs1⟩ | ⟨rd, csr, rs1⟩ | _
  · have hc : (controlD i.encode).csrCtrlE = 0#2 := csrCtrlE_of_encode i
    rw [ControlE.isCsr, show (SysInstr.base i).encode = i.encode from rfl, hc] at h
    contradiction
  · have hrd : (iType csr rs1 0b001#3 rd Opcode.csr).extractLsb' 7 5 = rd := rd_assemble ..
    have himm := imm_iType rs1 rd 0b001#3 Opcode.csr csr
    exact congrArg some (Prod.ext hrd.symm himm.symm)
  · have hrd : (iType csr rs1 0b010#3 rd Opcode.csr).extractLsb' 7 5 = rd := rd_assemble ..
    have himm := imm_iType rs1 rd 0b010#3 Opcode.csr csr
    exact congrArg some (Prod.ext hrd.symm himm.symm)
  · exact absurd h (by decide)

/-- A `csrrw` or `csrrs` is no `mret`. -/
theorem mretE_iType {csr : BitVec 12} {rs1 rd : Reg} {funct3 : BitVec 3} (hf : funct3 ≠ 0b000#3) :
    (controlD (iType csr rs1 funct3 rd Opcode.csr)).mretE = false := by
  have hfun : (iType csr rs1 funct3 rd Opcode.csr).extractLsb' 12 3 = funct3 := funct3_assemble ..
  change (_ && (iType csr rs1 funct3 rd Opcode.csr).extractLsb' 12 3 == 0b000#3 && _) = false
  rw [hfun, beq_eq_false_iff_ne.mpr hf, Bool.and_false, Bool.false_and]

/-- The CSR that an encoded instruction reads. -/
theorem csrSource_of_readsCsr (h : (controlD i.encode).readsCsr = true) :
    csrSource i = some (mulcuDecoder i.encode).csrRaddr := by
  rw [csrRaddr_eq]
  rcases i with i | ⟨rd, csr, rs1⟩ | ⟨rd, csr, rs1⟩ | _
  · have hb : isBase i.encode = true := by
      have hop : (mulcuDecoder i.encode).opcode = opcodeOf (.base i) := opcode_encode (.base i)
      rw [isBase, hop]
      cases i <;> rfl
    have hn := not_system_of_isBase hb
    rw [ControlE.readsCsr, show (SysInstr.base i).encode = i.encode from rfl, hn.1, hn.2] at h
    contradiction
  · have himm := imm_iType rs1 rd 0b001#3 Opcode.csr csr
    have hm := @mretE_iType csr rs1 rd 0b001#3 (by decide)
    exact congrArg some (himm.symm.trans (if_neg (Bool.eq_false_iff.mp hm)).symm)
  · have himm := imm_iType rs1 rd 0b010#3 Opcode.csr csr
    have hm := @mretE_iType csr rs1 rd 0b010#3 (by decide)
    exact congrArg some (himm.symm.trans (if_neg (Bool.eq_false_iff.mp hm)).symm)
  · rfl

/-- The CSR that an instruction writes is implemented. -/
theorem implemented_of_csrTarget {i : SysInstr} (hi : CsrsImplemented i) {rd : Reg}
    {csr : BitVec 12} (h : csrTarget i = some (rd, csr)) : CsrName.Implemented csr := by
  cases i with
  | base | mret => contradiction
  | csrrw | csrrs =>
    cases h
    exact hi

/-- The CSR that an instruction reads is implemented. -/
theorem implemented_of_csrSource {i : SysInstr} (hi : CsrsImplemented i) {csr : BitVec 12}
    (h : csrSource i = some csr) : CsrName.Implemented csr := by
  cases i with
  | base => contradiction
  | csrrw | csrrs =>
    cases h
    exact hi
  | mret =>
    cases h
    exact ⟨.mepc, rfl⟩

/-- An address at an offset with a multiple of 4. -/
theorem Aligned.add_offset {pc : Word} (hpc : Aligned pc) {n : ℕ} {imm : BitVec (n + 1)}
    (h : imm.getLsbD 0 = false) : Aligned (pc + (imm ++ 0#1).signExtend 32) := by
  have hoff : Aligned ((imm ++ 0#1).signExtend 32) := by
    apply BitVec.eq_of_getLsbD_eq
    intro k hk
    rw [BitVec.getLsbD_extractLsb', BitVec.getLsbD_signExtend, BitVec.getLsbD_append]
    interval_cases k
    · simp
    · simpa using h
  rw [aligned_iff] at *
  rw [BitVec.toNat_add]
  omega

/-- An encoded branch or `jal` has an aligned target. -/
theorem aligned_directTarget (hd : isDirectJump i.encode = true) (ho : alignedOffset i = true)
    {pc : Word} (hpc : Aligned pc) : Aligned (directTarget pc i.encode) := by
  have hop := opcode_encode i
  rcases i with i | _ | _ | _
  · cases i with
    | branch op rs1 rs2 imm =>
      have himme : (immeDecoder (Instr.branch op rs1 rs2 imm).encode).imme = _ :=
        imme_bType rs2 rs1 _ imm
      rw [directTarget, show (SysInstr.base _).encode = (Instr.branch op rs1 rs2 imm).encode from rfl,
        himme]
      exact hpc.add_offset (Bool.not_eq_true' _ ▸ ho)
    | jal rd imm =>
      have himme : (immeDecoder (Instr.jal rd imm).encode).imme = _ := imme_jType rd imm
      rw [directTarget, show (SysInstr.base _).encode = (Instr.jal rd imm).encode from rfl, himme]
      exact hpc.add_offset (Bool.not_eq_true' _ ▸ ho)
    | lui | auipc | jalr | load | store | opImm | shiftImm | opReg =>
      rw [isDirectJump, mulcuDecoder, hop] at hd
      exact absurd hd Bool.false_ne_true
  all_goals
    rw [isDirectJump, mulcuDecoder, hop] at hd
    exact absurd hd Bool.false_ne_true

end Decode

/-! ## The sequential machine goes through the states of the instruction set -/

/-- The state after one more instruction. -/
theorem isaSeq_succ (code : Word → SysInstr) (dmem : ByteMem 32) (n : ℕ) :
    isaSeq code dmem (n + 1) = (isaSeq code dmem n).exec (code (isaSeq code dmem n).pc) :=
  Function.iterate_succ_apply' ..

/-- Reset leaves the same state on both. -/
theorem implements_init (mem : Memories) : (Arch.init mem).Implements (isaReset mem.dmem) where
  pc := rfl
  reg r := by
    change (if true && r != 0#5 then 0#32 else 0#32) = if r = 0#5 then 0#32 else 0#32
    rw [ite_self, ite_self]
  mem := rfl
  csr n := by cases n <;> rfl

namespace IsaProgram

variable {code : Word → SysInstr} {mem : Memories} (h : IsaProgram code mem)
include h

/-- The sequential machine goes through the states of the machine of the instruction set, and finds
the words of the program in memory. -/
theorem implements (n : ℕ) :
    (seq mem n).Implements (isaSeq code mem.dmem n) ∧
      ∀ k, (seq mem n).mem.fetch (isaSeq code mem.dmem k).pc =
        mem.fetch (isaSeq code mem.dmem k).pc := by
  induction n with
  | zero => exact ⟨implements_init mem, fun _ => rfl⟩
  | succ n ih =>
    obtain ⟨hn, hfetch⟩ := ih
    have hi : (seq mem n).instr = (code (isaSeq code mem.dmem n).pc).encode := by
      rw [Arch.instr, hn.pc, hfetch, h.encoded]
    rw [seq_succ, isaSeq_succ]
    refine ⟨hn.next hi (h.csrs n) (h.even n), fun k => ?_⟩
    rw [Arch.fetch_next, hfetch]
    intro w hw
    rw [hn.write hi (h.even n), Option.mem_map] at hw
    obtain ⟨st, hst, rfl⟩ := hw
    exact h.fixed n k st hst

/-- The sequential machine executes the encoded instructions. -/
theorem instr (n : ℕ) : (seq mem n).instr = (code (isaSeq code mem.dmem n).pc).encode := by
  rw [Arch.instr, (h.implements n).1.pc, (h.implements n).2, h.encoded]

/-- The program has no hazard on the core. -/
theorem hazardFree : HazardFree (seq mem) where
  known n := by
    rw [h.instr]
    exact isKnown_encode _
  reg n k hk hc hr := by
    rw [h.instr] at hc hr ⊢
    rw [h.instr] at hr
    rcases mem_sources_of_readsReg _ hr with hr | hr
    · exact h.register n k hk _ _ (csrTarget_of_isCsr _ hc) hr
    · exact hr
  csr n k hk hc hr := by
    rw [h.instr] at hc hr ⊢
    rw [h.instr]
    have ht := csrTarget_of_isCsr _ hc
    have hs := csrSource_of_readsCsr _ hr
    have hne := h.csr n k hk _ _ ht
    obtain ⟨p, hp⟩ := implemented_of_csrTarget (h.csrs n) ht
    obtain ⟨q, hq⟩ := implemented_of_csrSource (h.csrs (n + k + 1)) hs
    rw [hs, ← hp, ← hq] at hne
    rw [← hp, ← hq, Csr.idx_addr, Csr.idx_addr]
    exact fun he => hne (by rw [CsrName.idx_inj.mp he])
  aligned n := by
    rw [(h.implements n).1.pc]
    exact h.aligned n
  target n hd := by
    rw [h.instr] at hd ⊢
    exact aligned_directTarget _ hd (h.offset n) (by
      rw [(h.implements n).1.pc]
      exact h.aligned n)
  fixed n k w hw := by
    rw [(h.implements n).1.write (h.instr n) (h.even n), Option.mem_map] at hw
    obtain ⟨st, hst, rfl⟩ := hw
    rw [(h.implements k).1.pc]
    exact h.fixed n k st hst

end IsaProgram

/-! ## Runs of the pipeline -/

/-- The core, which has written back `n` instructions, and its data memory show the states of the
machine of the instruction set: the instruction in W is the next one, the registers and the CSRs are
those before it, and the memory is the one behind it. -/
structure ShowsIsa (code : Word → SysInstr) (dmem : ByteMem 32) (n : ℕ) (y : System) : Prop where
  pc : y.core.ctl.validW = true → y.core.mw.pcRegW = (isaSeq code dmem n).pc
  reg : ∀ r, y.core.rf.read true r = (isaSeq code dmem n).reg r
  csr : ∀ c : CsrName, y.core.csr.get c = (isaSeq code dmem n).csr c.addr
  mem : y.mem.dmem = (isaSeq code dmem (y.core.idxM n)).mem

/-- A core that simulates the sequential machine shows the states of the machine of the instruction
set. -/
theorem IsaProgram.shows {code : Word → SysInstr} {mem : Memories} (h : IsaProgram code mem)
    {n : ℕ} {y : System} (hsim : Sim (seqRun mem) n y.core y.mem) :
    ShowsIsa code mem.dmem n y where
  pc hv := (hsim.wb hv).pc.trans (h.implements n).1.pc
  reg r := by
    rw [← (h.implements n).1.reg]
    by_cases hr : r = 0#5
    · simp [RegisterFile.read, hr]
    · simp [RegisterFile.read, hsim.rf r hr]
  csr c := by
    rw [← (h.implements n).1.csr, hsim.csr]
    rfl
  mem := by
    rw [hsim.mem]
    exact (h.implements _).1.mem

/-- In every cycle of a run the pipeline shows the states of the machine of the instruction set. -/
theorem showsIsa_run {code : Word → SysInstr} (y₀ : System) (bus : ℕ → Bus)
    (hreset : y₀.core.AfterReset) (hprog : IsaProgram code y₀.mem) (t : ℕ) :
    let y := Clocked.run System.step y₀ bus
    ShowsIsa code y₀.mem.dmem (retired (fun u => (y u).core) t) (y t) :=
  hprog.shows
    (hprog.hazardFree.run (System.memRun_step y₀ bus hreset) (fun _ _ => rfl) t).1

/-- For every program that the core can execute, every timing of the responses, and every state
before reset, the pipeline goes through the states of the machine of the instruction set, and with
responses that keep coming it executes any number of instructions. -/
theorem pipeline_implements_isa {code : Word → SysInstr} (y₀ : System) (bus : ℕ → Bus)
    (hreset : y₀.core.AfterReset) (hprog : IsaProgram code y₀.mem) :
    let y := Clocked.run System.step y₀ bus
    (∀ t, ShowsIsa code y₀.mem.dmem (retired (fun u => (y u).core) t) (y t)) ∧
      ((Fair fun t => (bus t).rvalid) → ∀ n, ∃ t, retired (fun u => (y u).core) t = n) :=
  ⟨showsIsa_run y₀ bus hreset hprog,
    fun hfair => (System.memRun_step y₀ bus hreset).toCoreRun.exists_retired hfair⟩

/-! ## Programs without stores and system instructions -/

/-- The instruction is a base instruction other than a store. -/
def isPlain : SysInstr → Bool
  | .base (.store _ _ _ _) => false
  | .base _ => true
  | _ => false

/-- The word at an address is that of an instruction that neither stores nor touches a CSR, and
leads from an aligned address to aligned addresses. -/
structure PlainAt (code : Word → SysInstr) (mem : Memories) (p : Word) : Prop where
  encoded : mem.fetch p = (code p).encode
  plain : isPlain (code p) = true
  aligned : Aligned p
  offset : alignedOffset (code p) = true

/-- A program of such instructions only, whose `jalr`s have even targets. -/
theorem IsaProgram.of_plain {code : Word → SysInstr} {mem : Memories}
    (h : ∀ n, PlainAt code mem (isaSeq code mem.dmem n).pc)
    (heven : ∀ n, (isaSeq code mem.dmem n).EvenTarget (code (isaSeq code mem.dmem n).pc)) :
    IsaProgram code mem where
  encoded n := (h n).encoded
  csrs n := by
    have hp := (h n).plain
    cases hi : code (isaSeq code mem.dmem n).pc with
    | base => trivial
    | csrrw | csrrs | mret =>
      rw [hi] at hp
      contradiction
  even := heven
  aligned n := (h n).aligned
  offset n := (h n).offset
  fixed n k st hst := by
    have hp := (h n).plain
    cases hi : code (isaSeq code mem.dmem n).pc with
    | base i =>
      rw [hi] at hp hst
      cases i with
      | store => contradiction
      | load => exact absurd hst (Option.not_mem_none st)
      | lui | auipc | jal | jalr | branch | opImm | shiftImm | opReg =>
        exact absurd hst (Option.not_mem_none st)
    | csrrw | csrrs | mret =>
      rw [hi] at hp
      contradiction
  register n k _ rd csr ht := by
    have hp := (h n).plain
    cases hi : code (isaSeq code mem.dmem n).pc with
    | base =>
      rw [hi] at ht
      contradiction
    | csrrw | csrrs | mret =>
      rw [hi] at hp
      contradiction
  csr n k _ rd csr ht := by
    have hp := (h n).plain
    cases hi : code (isaSeq code mem.dmem n).pc with
    | base =>
      rw [hi] at ht
      contradiction
    | csrrw | csrrs | mret =>
      rw [hi] at hp
      contradiction

/-! ## A program that counts -/

/-- The instructions `addi x1, x1, 1` and `jal x0, -4`. -/
def countLoop : Word → SysInstr := fun p =>
  if p = pcRst then .base (.opImm .addi 1#5 1#5 1#12) else .base (.jal 0#5 (-2))

/-- The two instructions at the reset address. -/
def countLoopMem : Memories :=
  let image := ByteMem.ofWords pcRst [0x00108093#32, 0xffdff06f#32]
  ⟨true, image, image⟩

/-- The program is at one of its two instructions. -/
theorem countLoop_pc (n : ℕ) : (isaSeq countLoop countLoopMem.dmem n).pc = pcRst ∨
    (isaSeq countLoop countLoopMem.dmem n).pc = pcRst + 4#32 := by
  induction n with
  | zero => exact .inl rfl
  | succ n ih =>
    rw [isaSeq_succ]
    generalize isaSeq countLoop countLoopMem.dmem n = s at *
    have hadd : (s.exec (.base (.opImm .addi 1#5 1#5 1#12))).pc = s.pc + 4#32 := rfl
    have hjal : (s.exec (.base (.jal 0#5 (-2)))).pc =
      s.pc + ((-2 : BitVec 20) ++ 0#1).signExtend 32 := rfl
    rcases ih with ih | ih <;> rw [ih]
    · right
      rw [show countLoop pcRst = .base (.opImm .addi 1#5 1#5 1#12) from rfl, hadd, ih]
    · left
      rw [show countLoop (pcRst + 4#32) = .base (.jal 0#5 (-2)) from rfl, hjal, ih]
      decide

/-- The core can execute the program. -/
theorem countLoop_isaProgram : IsaProgram countLoop countLoopMem :=
  IsaProgram.of_plain
    (fun n => by
      rcases countLoop_pc n with h | h <;> rw [h] <;>
        exact ⟨by decide, by decide, by decide, by decide⟩)
    fun n => by rcases countLoop_pc n with h | h <;> rw [h] <;> trivial

/-- The program on the pipeline, with every response in its first cycle. -/
theorem pipeline_implements_isa_countLoop :
    let y := Clocked.run System.step ⟨Datapath.reset, countLoopMem⟩ fun _ => ⟨true, 0#32, 0#32⟩
    (∀ t, ShowsIsa countLoop countLoopMem.dmem (retired (fun u => (y u).core) t) (y t)) ∧
      ∀ n, ∃ t, retired (fun u => (y u).core) t = n :=
  have h := pipeline_implements_isa ⟨Datapath.reset, countLoopMem⟩ (fun _ => ⟨true, 0#32, 0#32⟩)
    Datapath.afterReset_reset countLoop_isaProgram
  ⟨h.1, h.2 fun t => ⟨t, le_refl t, rfl⟩⟩

end RV32Pipeline
